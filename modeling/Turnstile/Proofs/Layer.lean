import Turnstile.Formula.Layer
import Turnstile.Proofs.Nesting

/-! What reading one layer of a text can give, as relations on its words. Tokens do not
occur after this module: where the words divide, what leads them and which layer they
make is said of the words alone. -/
namespace Turnstile

namespace Operator

/-- No spelling has a parenthesis or a mark of a placeholder. -/
theorem not_mem_of_ofWord? {w : Text} {operator : Operator}
    (spelled : ofWord? w = some operator) : '(' ∉ w ∧ ')' ∉ w ∧ '<' ∉ w := by
  rcases ofWord?_eq_some_iff.mp spelled with rfl | rfl <;>
    rcases operator with _ | (_ | _ | _) | (_ | _) <;> decide

theorem isWord_of_ofWord? {w : Text} {operator : Operator}
    (spelled : ofWord? w = some operator) : Text.IsWord w := by
  rcases ofWord?_eq_some_iff.mp spelled with rfl | rfl <;>
    rcases operator with _ | (_ | _ | _) | (_ | _) <;> exact ⟨by decide, Text.solid_of_all rfl⟩

theorem parens_of_ofWord? {w : Text} {operator : Operator}
    (spelled : ofWord? w = some operator) : Text.parens w = [] := by
  obtain ⟨unopened, unclosed, _⟩ := not_mem_of_ofWord? spelled
  apply Text.parens_eq_nil
  intro c member
  exact ⟨ne_of_mem_of_not_mem member unopened, ne_of_mem_of_not_mem member unclosed⟩

end Operator

namespace Token

@[simp] theorem text_ofWord (index : Nat) (depth : Int) (w : Text) :
    (ofWord index depth w).text = w := rfl

theorem connective?_ofWord {index : Nat} {depth : Int} {w : Text} {c : Connective} :
    (ofWord index depth w).connective? = some c ↔
      Operator.ofWord? w = some (.bin c) ∧ depth = 0 := by
  have flat {operator : Operator} (spelled : Operator.ofWord? w = some operator) :
      Text.balance w = 0 := by
    rw [← Text.balance_parens, Operator.parens_of_ofWord? spelled]
    rfl
  cases spelled : Operator.ofWord? w with
  | none => simp [connective?, ofWord, Kind.ofWord, spelled]
  | some operator =>
    cases operator with
    | bin d => simp [connective?, ofWord, Kind.ofWord, spelled, flat spelled, and_comm]
    | neg | quant q => simp [connective?, ofWord, Kind.ofWord, spelled]

end Token

namespace Division

/-- No connective stands outside all parentheses. -/
def Absent (ws : List Text) : Prop :=
  ∀ left w right c, ws = left ++ w :: right → Operator.ofWord? w = some (.bin c) →
    Text.balance left.flatten ≠ 0

theorem find?_ofWords_eq_none_iff {index : Nat} {depth : Int} {ws : List Text} :
    find? (Token.ofWords index depth ws) = none ↔
      ∀ left w right c, ws = left ++ w :: right → Operator.ofWord? w = some (.bin c) →
        depth + Text.balance left.flatten ≠ 0 := by
  induction ws generalizing index depth with
  | nil => simp [Token.ofWords, find?]
  | cons v ws ih =>
    rw [Token.ofWords, find?]
    cases found : (Token.ofWord index depth v).connective? with
    | some c =>
      obtain ⟨spelled, rfl⟩ := Token.connective?_ofWord.mp found
      simp only [reduceCtorEq, false_iff, not_forall]
      exact ⟨[], v, ws, c, rfl, spelled, by simp [Text.balance]⟩
    | none =>
      simp only [Option.map_eq_none_iff, ih]
      constructor
      · intro later left w right c parts spelled
        cases left with
        | nil =>
          cases parts
          intro flat
          rw [Token.connective?_ofWord.mpr ⟨spelled, by simpa [Text.balance] using flat⟩] at found
          cases found
        | cons first left =>
          cases parts
          have deeper := later left w right c rfl spelled
          rwa [List.flatten_cons, Text.balance_append, ← Int.add_assoc]
      · intro all left w right c parts spelled
        have deeper := all (v :: left) w right c (by rw [parts]; rfl) spelled
        rwa [List.flatten_cons, Text.balance_append, ← Int.add_assoc] at deeper

theorem spec_of_find?_ofWords {index : Nat} {depth : Int} {ws : List Text} {division : Division}
    (found : find? (Token.ofWords index depth ws) = some division) :
    Operator.ofWord? division.spelling = some (.bin division.connective) ∧
      depth + Text.balance division.left.flatten = 0 ∧
      find? (Token.ofWords index depth division.left) = none := by
  induction ws generalizing index depth division with
  | nil => simp [Token.ofWords, find?] at found
  | cons v ws ih =>
    rw [Token.ofWords, find?] at found
    split at found
    · next c connective =>
      cases found
      obtain ⟨spelled, rfl⟩ := Token.connective?_ofWord.mp connective
      exact ⟨spelled, by simp [Text.balance], rfl⟩
    · next other =>
      obtain ⟨inner, deeper, rfl⟩ := Option.map_eq_some_iff.mp found
      obtain ⟨spelled, flat, absent⟩ := ih deeper
      refine ⟨spelled, ?_, ?_⟩
      · rwa [List.flatten_cons, Text.balance_append, ← Int.add_assoc]
      · rw [Token.text_ofWord, Token.ofWords, find?, other]
        exact Option.map_eq_none_iff.mpr absent

theorem find?_ofWords_append {index : Nat} {depth : Int} {left : List Text} {w : Text}
    {c : Connective} (right : List Text)
    (absent : find? (Token.ofWords index depth left) = none)
    (spelled : Operator.ofWord? w = some (.bin c))
    (flat : depth + Text.balance left.flatten = 0) :
    find? (Token.ofWords index depth (left ++ w :: right)) = some ⟨left, c, w, right⟩ := by
  induction left generalizing index depth with
  | nil =>
    have outside : depth = 0 := by simpa [Text.balance] using flat
    have connective : (Token.ofWord index depth w).connective? = some c :=
      Token.connective?_ofWord.mpr ⟨spelled, outside⟩
    rw [List.nil_append, Token.ofWords, find?, connective]
    simp [Token.ofWord]
  | cons v left ih =>
    rw [Token.ofWords, find?] at absent
    rw [List.flatten_cons, Text.balance_append, ← Int.add_assoc] at flat
    split at absent
    · cases absent
    · next other =>
      have inner := ih (Option.map_eq_none_iff.mp absent) flat
      rw [List.cons_append, Token.ofWords, find?, other]
      simp only [inner, Option.map_some]
      rfl

end Division

namespace Lead

/-- What stands in front of some words: a keyword, or a glued symbol. -/
inductive Leads : List Text → Lead → Prop where
  | negation (spelled : Operator.ofWord? w = some .neg) :
      Leads (w :: ws) ⟨none, Text.unwords ws, false⟩
  | quantifier (spelled : Operator.ofWord? w = some (.quant q)) :
      Leads (w :: ws) ⟨some q, Text.unwords ws, false⟩
  | gluedNegation : Leads (('~' :: '(' :: w) :: ws) ⟨none, Text.unwords (('(' :: w) :: ws), true⟩
  | gluedQuantifier {q : Quantifier} {x : Char} {w : Text} (letter : Text.isLetter x = true) :
      Leads ((q.symbol :: '<' :: x :: '>' :: '(' :: w) :: ws)
        ⟨some q, Text.unwords (('<' :: x :: '>' :: '(' :: w) :: ws), true⟩

theorem opensScope_iff {t : Text} :
    opensScope t = true ↔ ∃ x w, Text.isLetter x = true ∧ t = '<' :: x :: '>' :: '(' :: w := by
  simp only [opensScope, Option.any_eq_true, Prod.exists, Text.leadingVariable?_eq_some_iff,
    beq_iff_eq, List.head?_eq_some_iff]
  constructor
  · rintro ⟨_, _, ⟨x, rfl, letter, rfl⟩, w, rfl⟩
    exact ⟨x, w, letter, rfl⟩
  · rintro ⟨x, w, letter, rfl⟩
    exact ⟨[x], '(' :: w, ⟨x, rfl, letter, rfl⟩, w, rfl⟩

theorem glued?_eq_some_iff {word rest : Text} {quantifier? : Option Quantifier} :
    glued? word = some (quantifier?, rest) ↔
      (quantifier? = none ∧ ∃ w, word = '~' :: '(' :: w ∧ rest = '(' :: w) ∨
        ∃ q x w, quantifier? = some q ∧ Text.isLetter x = true ∧
          word = q.symbol :: rest ∧ rest = '<' :: x :: '>' :: '(' :: w := by
  constructor
  · intro found
    cases word with
    | nil => cases found
    | cons symbol tail =>
      simp only [glued?] at found
      split at found
      · next opens =>
        rw [Bool.and_eq_true, beq_iff_eq, beq_iff_eq, List.head?_eq_some_iff] at opens
        obtain ⟨rfl, w, rfl⟩ := opens
        cases found
        exact .inl ⟨rfl, w, rfl, rfl⟩
      · split at found
        · next opens =>
          rw [Bool.and_eq_true, beq_iff_eq, opensScope_iff] at opens
          obtain ⟨rfl, x, w, letter, rfl⟩ := opens
          cases found
          exact .inr ⟨.ex, x, w, rfl, letter, rfl, rfl⟩
        · split at found
          · next opens =>
            rw [Bool.and_eq_true, beq_iff_eq, opensScope_iff] at opens
            obtain ⟨rfl, x, w, letter, rfl⟩ := opens
            cases found
            exact .inr ⟨.all, x, w, rfl, letter, rfl, rfl⟩
          · cases found
  · rintro (⟨rfl, w, rfl, rfl⟩ | ⟨q, x, w, rfl, letter, rfl, rfl⟩)
    · rfl
    · have opens : opensScope ('<' :: x :: '>' :: '(' :: w) = true :=
        opensScope_iff.mpr ⟨x, w, letter, rfl⟩
      cases q <;> simp [glued?, opens, Operator.symbol, Quantifier.symbol]

/-- A word with a parenthesis is no keyword. -/
theorem ofWord?_eq_none {w : Text} (opens : '(' ∈ w) : Operator.ofWord? w = none := by
  rw [Option.eq_none_iff_forall_ne_some]
  intro operator spelled
  exact (Operator.not_mem_of_ofWord? spelled).1 opens

theorem find?_ofWords {index : Nat} {depth : Int} {ws : List Text} {lead : Lead} :
    find? (Token.ofWords index depth ws) = some lead ↔ Leads ws lead := by
  cases ws with
  | nil =>
    simp only [Token.ofWords, find?, reduceCtorEq, false_iff]
    rintro ⟨⟩
  | cons v ws =>
    have kind : (Token.ofWord index depth v).kind = Token.Kind.ofWord v := rfl
    have text : (Token.ofWord index depth v).text = v := rfl
    rw [Token.ofWords, find?, Token.map_text_ofWords, kind, text, Token.Kind.ofWord]
    constructor
    · intro found
      cases spelled : Operator.ofWord? v with
      | some operator =>
        cases operator <;> simp only [spelled] at found <;> cases found
        · exact .negation spelled
        · exact .quantifier spelled
      | none =>
        simp only [spelled] at found
        obtain ⟨⟨quantifier?, rest⟩, glued, rfl⟩ := Option.map_eq_some_iff.mp found
        rcases glued?_eq_some_iff.mp glued with
          ⟨rfl, w, rfl, rfl⟩ | ⟨q, x, w, rfl, letter, rfl, rfl⟩
        · exact .gluedNegation
        · exact .gluedQuantifier letter
    · intro leads
      cases leads with
      | negation spelled => simp [spelled]
      | quantifier spelled => simp [spelled]
      | @gluedNegation w =>
        have glued := glued?_eq_some_iff.mpr (.inl ⟨rfl, w, rfl, rfl⟩)
        simp [ofWord?_eq_none, glued]
      | @gluedQuantifier _ q x w letter =>
        have glued := glued?_eq_some_iff.mpr (.inr ⟨q, x, w, rfl, letter, rfl, rfl⟩)
        simp [ofWord?_eq_none, glued]

theorem layer_eq_ok_iff {lead : Lead} {whole : Text} {layer : Layer} :
    lead.layer whole = .ok layer ↔
      (lead.quantifier? = none ∧ Text.strip lead.rest ≠ [] ∧ layer = .neg lead.rest) ∨
        ∃ q x body, lead.quantifier? = some q ∧ Text.isLetter x = true ∧
          lead.rest = '<' :: x :: '>' :: body ∧ scopeFollows lead.glued body = true ∧
          Text.strip body ≠ [] ∧ layer = .quant q [x] body := by
  obtain ⟨quantifier?, rest, glued⟩ := lead
  constructor
  · intro made
    unfold Lead.layer at made
    split at made
    · next none =>
      split at made
      · cases made
      · next proper =>
        cases made
        exact .inl ⟨none, proper, rfl⟩
    · next q some =>
      split at made
      · cases made
      · next var body front =>
        obtain ⟨x, rfl, letter, parts⟩ := Text.leadingVariable?_eq_some_iff.mp front
        split at made
        · cases made
        · next scope =>
          split at made
          · cases made
          · next proper =>
            cases made
            exact .inr ⟨q, x, body, some, letter, parts, by simpa using scope, proper, rfl⟩
  · rintro (⟨rfl, proper, rfl⟩ | ⟨q, x, body, rfl, letter, rfl, scope, proper, rfl⟩)
    · exact if_neg proper
    · have front : Text.leadingVariable? ('<' :: x :: '>' :: body) = some ([x], body) :=
        Text.leadingVariable?_eq_some_iff.mpr ⟨x, rfl, letter, rfl⟩
      simp [layer, front, scope, proper]

/-- What follows is the rest of the words when they are set with single spaces. -/
theorem Leads.rest_suffix {ws : List Text} {lead : Lead} (leads : Leads ws lead) :
    lead.rest <:+ Text.unwords ws := by
  have glued (c : Char) (w : Text) (ws : List Text) :
      Text.unwords (w :: ws) <:+ Text.unwords ((c :: w) :: ws) := by
    rw [Text.unwords_cons_cons]
    exact List.suffix_cons _ _
  cases leads with
  | @negation w ws | @quantifier w q ws => exact Text.unwords_append_right [w] ws
  | gluedNegation | gluedQuantifier => exact glued _ _ _

theorem Leads.parens_rest {ws : List Text} {lead : Lead} (leads : Leads ws lead) :
    Text.parens lead.rest = Text.parens ws.flatten := by
  cases leads with
  | negation spelled | quantifier spelled =>
    rw [Text.parens_unwords, List.flatten_cons, Text.parens_append,
      Operator.parens_of_ofWord? spelled, List.nil_append]
  | gluedNegation =>
    rw [Text.parens_unwords]
    rfl
  | @gluedQuantifier _ q =>
    rw [Text.parens_unwords]
    cases q <;> rfl

end Lead

namespace Layer

/-- The layers of a text that nothing encloses. A keyword in front comes before every
connective, a glued symbol after all of them. -/
inductive Reading (t : Text) : Layer → Prop where
  | atom (unled : ∀ lead, ¬Lead.Leads (Text.words t) lead)
      (undivided : Division.Absent (Text.words t)) : Reading t (.atom t)
  | neg (leads : Lead.Leads (Text.words t) ⟨none, rest, glued⟩)
      (undivided : glued = true → Division.Absent (Text.words t))
      (proper : Text.strip rest ≠ []) : Reading t (.neg rest)
  | quant (leads : Lead.Leads (Text.words t) ⟨some q, '<' :: x :: '>' :: body, glued⟩)
      (undivided : glued = true → Division.Absent (Text.words t))
      (letter : Text.isLetter x = true) (scope : Lead.scopeFollows glued body = true)
      (proper : Text.strip body ≠ []) : Reading t (.quant q [x] body)
  | bin (parts : Text.words t = left ++ w :: right)
      (spelled : Operator.ofWord? w = some (.bin c)) (flat : Text.balance left.flatten = 0)
      (undivided : Division.Absent left)
      (glued : ∀ lead, Lead.Leads (Text.words t) lead → lead.glued = true)
      (leftProper : Text.strip (Text.unwords left) ≠ [])
      (rightProper : Text.strip (Text.unwords right) ≠ []) :
      Reading t (.bin c (Text.unwords left) (Text.unwords right))

theorem find?_lead_eq_none_iff {t : Text} :
    Lead.find? (Token.ofText t) = none ↔ ∀ lead, ¬Lead.Leads (Text.words t) lead := by
  simp only [Option.eq_none_iff_forall_ne_some, Token.ofText, Ne, Lead.find?_ofWords]

theorem find?_division_eq_none_iff {t : Text} :
    Division.find? (Token.ofText t) = none ↔ Division.Absent (Text.words t) := by
  simp only [Token.ofText, Division.find?_ofWords_eq_none_iff, Division.Absent, Int.zero_add]

/-- The first connective at depth zero is found. -/
theorem find?_division_of_parts {t w : Text} {left right : List Text} {c : Connective}
    (parts : Text.words t = left ++ w :: right) (spelled : Operator.ofWord? w = some (.bin c))
    (flat : Text.balance left.flatten = 0) (undivided : Division.Absent left) :
    Division.find? (Token.ofText t) = some ⟨left, c, w, right⟩ := by
  have absent : Division.find? (Token.ofWords 0 0 left) = none :=
    Division.find?_ofWords_eq_none_iff.mpr (by simpa [Division.Absent] using undivided)
  rw [Token.ofText, parts]
  exact Division.find?_ofWords_append right absent spelled (by simpa using flat)

theorem Reading.of_lead {t : Text} {lead : Lead} {layer : Layer}
    (leads : Lead.Leads (Text.words t) lead)
    (undivided : lead.glued = true → Division.Absent (Text.words t))
    (made : lead.layer t = .ok layer) : Reading t layer := by
  obtain ⟨quantifier?, rest, glued⟩ := lead
  rcases Lead.layer_eq_ok_iff.mp made with
    ⟨rfl, proper, rfl⟩ | ⟨q, x, body, rfl, letter, rfl, scope, proper, rfl⟩
  · exact .neg leads undivided proper
  · exact .quant leads undivided letter scope proper

theorem Reading.of_division {t : Text} {division : Division} {layer : Layer}
    (found : Division.find? (Token.ofText t) = some division)
    (glued : ∀ lead, Lead.Leads (Text.words t) lead → lead.glued = true)
    (made : division.layer t = .ok layer) : Reading t layer := by
  obtain ⟨spelled, flat, absent⟩ := Division.spec_of_find?_ofWords found
  have parts := Division.words_eq found
  rw [Token.map_text_ofText] at parts
  rw [Int.zero_add] at flat
  have undivided : Division.Absent division.left := by
    simpa [Division.Absent, Division.find?_ofWords_eq_none_iff] using absent
  simp only [Division.layer] at made
  split at made
  · cases made
  · next proper =>
    cases made
    obtain ⟨leftProper, rightProper⟩ := not_or.mp proper
    exact .bin parts spelled flat undivided glued leftProper rightProper

theorem ofTokens_of_lead {t : Text} {lead : Lead} (leads : Lead.Leads (Text.words t) lead)
    (undivided : lead.glued = true → Division.Absent (Text.words t)) :
    ofTokens t (Token.ofText t) = lead.layer t := by
  have led : Lead.find? (Token.ofText t) = some lead := Lead.find?_ofWords.mpr leads
  by_cases glued : lead.glued = true
  · simp [ofTokens, led, glued, find?_division_eq_none_iff.mpr (undivided glued)]
  · simp [ofTokens, led, glued]

theorem ofTokens_of_division {t : Text} {division : Division}
    (found : Division.find? (Token.ofText t) = some division)
    (glued : ∀ lead, Lead.Leads (Text.words t) lead → lead.glued = true) :
    ofTokens t (Token.ofText t) = division.layer t := by
  cases led : Lead.find? (Token.ofText t) with
  | none => simp [ofTokens, led, found]
  | some lead => simp [ofTokens, led, found, glued lead (Lead.find?_ofWords.mp led)]

theorem read_eq_ok_iff {input : Text} {layer : Layer} :
    read input = .ok layer ↔ Text.strip input ≠ [] ∧ Reading (Text.strip input) layer := by
  generalize whole : Text.strip input = t
  simp only [read, whole]
  split
  · next none => simp [none]
  · next some =>
    simp only [ne_eq, some, not_false_eq_true, true_and]
    constructor
    · intro made
      cases led : Lead.find? (Token.ofText t) with
      | none =>
        have unled := find?_lead_eq_none_iff.mp led
        cases found : Division.find? (Token.ofText t) with
        | none =>
          simp only [ofTokens, led, found] at made
          cases made
          exact .atom unled (find?_division_eq_none_iff.mp found)
        | some division =>
          have glued : ∀ lead, Lead.Leads (Text.words t) lead → lead.glued = true :=
            fun lead leads => absurd leads (unled lead)
          exact .of_division found glued (ofTokens_of_division found glued ▸ made)
      | some lead =>
        have leads := Lead.find?_ofWords.mp led
        cases found : Division.find? (Token.ofText t) with
        | none =>
          have undivided := find?_division_eq_none_iff.mp found
          exact .of_lead leads (fun _ => undivided)
            (ofTokens_of_lead leads (fun _ => undivided) ▸ made)
        | some division =>
          by_cases glued : lead.glued = true
          · have all : ∀ other, Lead.Leads (Text.words t) other → other.glued = true := by
              intro other leads
              obtain rfl := Option.some.inj (led.symm.trans (Lead.find?_ofWords.mpr leads))
              exact glued
            exact .of_division found all (ofTokens_of_division found all ▸ made)
          · have undivided : lead.glued = true → Division.Absent (Text.words t) :=
              fun glue => absurd glue glued
            exact .of_lead leads undivided (ofTokens_of_lead leads undivided ▸ made)
    · intro reading
      cases reading with
      | atom unled undivided =>
        simp [ofTokens, find?_lead_eq_none_iff.mpr unled, find?_division_eq_none_iff.mpr undivided]
      | neg leads undivided proper =>
        rw [ofTokens_of_lead leads undivided]
        exact Lead.layer_eq_ok_iff.mpr (.inl ⟨rfl, proper, rfl⟩)
      | quant leads undivided letter scope proper =>
        rw [ofTokens_of_lead leads undivided]
        exact Lead.layer_eq_ok_iff.mpr (.inr ⟨_, _, _, rfl, letter, rfl, scope, proper, rfl⟩)
      | @bin left w right c parts spelled flat undivided glued leftProper rightProper =>
        have found := find?_division_of_parts parts spelled flat undivided
        rw [ofTokens_of_division found glued]
        simp [Division.layer, leftProper, rightProper]

namespace Reading

variable {t operand : Text} {layer : Layer}

theorem eq_of_atom {u : Text} (reading : Reading t (.atom u)) : u = t := by
  cases reading
  rfl

theorem isVariable {q : Quantifier} {var : Text} (reading : Reading t (.quant q var operand)) :
    Text.isVariable var = true := by
  cases reading with
  | quant _ _ letter => exact Text.isVariable_iff.mpr ⟨_, rfl, letter⟩

/-- An operand is more than blanks and parentheses, and a piece of the text as its words are
set with single spaces. -/
theorem operand_spec (reading : Reading t layer) (member : operand ∈ layer.operands) :
    Text.strip operand ≠ [] ∧ operand <:+: Text.unwords (Text.words t) := by
  cases reading with
  | atom => simp [operands] at member
  | neg leads _ proper =>
    obtain rfl := List.mem_singleton.mp member
    exact ⟨proper, leads.rest_suffix.isInfix⟩
  | @quant q x body _ leads _ _ _ proper =>
    obtain rfl := List.mem_singleton.mp member
    exact ⟨proper, ((List.suffix_append ['<', x, '>'] operand).trans leads.rest_suffix).isInfix⟩
  | @bin left w right c parts _ _ _ _ leftProper rightProper =>
    rw [parts]
    simp only [operands, List.mem_cons, List.not_mem_nil, or_false] at member
    rcases member with rfl | rfl
    · exact ⟨leftProper, (Text.unwords_append_left left (w :: right)).isInfix⟩
    · refine ⟨rightProper, List.IsSuffix.isInfix ?_⟩
      simpa using Text.unwords_append_right (left ++ [w]) right

theorem tight_operand (reading : Reading t layer) (member : operand ∈ layer.operands) :
    Text.Tight operand := by
  have whole : ∀ w ∈ Text.words t, Text.IsWord w := fun w => Text.isWord_of_mem_words
  exact List.IsChain.infix (Text.tight_unwords whole).1 (reading.operand_spec member).2

/-- Parentheses that are matched in a text are matched in each operand. -/
theorem balanced_operand (reading : Reading t layer) (balanced : Text.Balanced t)
    (member : operand ∈ layer.operands) : Text.Balanced operand := by
  have words : Text.depth? 0 (Text.words t).flatten = some 0 := by
    rwa [Text.depth?_congr (Text.parens_flatten_words t)]
  have ofLead {lead : Lead} (leads : Lead.Leads (Text.words t) lead) :
      Text.Balanced lead.rest := by
    rwa [Text.Balanced, Text.depth?_congr leads.parens_rest]
  cases reading with
  | atom => simp [operands] at member
  | neg leads =>
    obtain rfl := List.mem_singleton.mp member
    exact ofLead leads
  | @quant q x body _ leads _ letter =>
    obtain rfl := List.mem_singleton.mp member
    have same : Text.parens (Text.placeholder [x] ++ operand) = Text.parens operand := by
      rw [Text.parens_append, (Text.plain_placeholder (Text.isRun_singleton letter)).2,
        List.nil_append]
    rw [Text.Balanced, ← Text.depth?_congr same]
    exact ofLead leads
  | @bin left w right c parts spelled flat =>
    -- The connective stands at depth zero, so the depth is zero after the words before it.
    rw [parts, List.flatten_append, Text.depth?_append] at words
    obtain ⟨e, before, after⟩ := Option.bind_eq_some_iff.mp words
    obtain rfl : e = 0 := by
      have reached := Text.balance_of_depth? before
      omega
    have same : Text.parens (w :: right).flatten = Text.parens right.flatten := by
      simp [Operator.parens_of_ofWord? spelled]
    rw [Text.depth?_congr same] at after
    simp only [operands, List.mem_cons, List.not_mem_nil, or_false] at member
    rcases member with rfl | rfl
    · rwa [Text.Balanced, Text.depth?_congr (Text.parens_unwords left)]
    · rwa [Text.Balanced, Text.depth?_congr (Text.parens_unwords right)]

/-- What has no blank and occurs in an operand occurs in the text. -/
theorem infix_of_operand (reading : Reading t layer) (member : operand ∈ layer.operands)
    {mark : Text} (word : Text.IsWord mark) (within : mark <:+: operand) : mark <:+: t := by
  have among := within.trans (reading.operand_spec member).2
  obtain ⟨w, inside, occurs⟩ := Text.infix_unwords word among
  exact occurs.trans (Text.infix_of_mem_words inside)

end Reading
end Layer
end Turnstile
