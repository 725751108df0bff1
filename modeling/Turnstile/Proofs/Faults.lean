import Turnstile.Formula.Build
import Turnstile.Proofs.Collapse
import Turnstile.Proofs.Peeling
import Turnstile.Proofs.RoundTrip

/-! The faults of reading. A text is refused as empty if nothing is left of it without what
encloses it, and otherwise for a piece of it that an operator stands in without its
operands. No operand is refused as empty, since the operator looks at it first. -/
namespace Turnstile

section Failure

variable {ε α β : Type}

theorem bind_eq_error_iff {x : Except ε α} {g : α → Except ε β} {fault : ε} :
    (x >>= g) = .error fault ↔ x = .error fault ∨ ∃ a, x = .ok a ∧ g a = .error fault := by
  cases x with
  | error other => simp [bind, Except.bind]
  | ok a => simp [bind, Except.bind]

theorem map_eq_error_iff {x : Except ε α} {g : α → β} {fault : ε} :
    x.map g = .error fault ↔ x = .error fault := by
  cases x with
  | error other => simp [Except.map]
  | ok a => simp [Except.map]

end Failure

theorem shown_append {front : String} (plain : ∀ c ∈ front.toList, c ≠ '\x00') (rest : String) :
    shown (front ++ rest) = front ++ shown rest := by
  have kept : ∀ c ∈ front.toList, (c != '\x00') = true := by simpa using plain
  rw [shown, String.toList_append, List.takeWhile_append_of_pos kept, String.ofList_append,
    String.ofList_toList, shown]

theorem ne_nul_of_mem_toString {n : Nat} {c : Char} (member : c ∈ (toString n).toList) :
    c ≠ '\x00' := by
  rw [Nat.toString_eq_ofList_toDigits, String.toList_ofList] at member
  rintro rfl
  exact absurd (Nat.isDigit_of_mem_toDigits (by decide) (by decide) member) (by decide)

/-- A message is cut only after the line that it names. -/
theorem Located.exists_message {α : Type} (describe : α → String) (error : Located α) :
    ∃ rest, error.message describe = toString error.line ++ ": ERROR: " ++ rest := by
  refine ⟨shown (describe error.fault), shown_append ?_ _⟩
  intro c member
  rw [String.toList_append] at member
  rcases List.mem_append.mp member with digit | sign
  · exact ne_nul_of_mem_toString digit
  · rintro rfl
    exact absurd sign (by decide)

/-- The operator quotes the whole text that it stands in. -/
theorem Lead.fault_of_layer {lead : Lead} {whole : Text} {fault : Formula.Fault}
    (failed : lead.layer whole = .error fault) :
    fault.kind = .malformed ∧ fault.fragment = whole := by
  unfold Lead.layer at failed
  split at failed
  · split at failed
    · cases failed
      exact ⟨rfl, rfl⟩
    · cases failed
  · split at failed
    · cases failed
      exact ⟨rfl, rfl⟩
    · split at failed
      · cases failed
        exact ⟨rfl, rfl⟩
      · split at failed
        · cases failed
          exact ⟨rfl, rfl⟩
        · cases failed

theorem Division.fault_of_layer {division : Division} {whole : Text} {fault : Formula.Fault}
    (failed : division.layer whole = .error fault) :
    fault.kind = .malformed ∧ fault.fragment = whole := by
  simp only [Division.layer] at failed
  split at failed
  · cases failed
    exact ⟨rfl, rfl⟩
  · cases failed

namespace Layer

theorem fault_of_read {input : Text} {fault : Formula.Fault} (failed : read input = .error fault) :
    Text.strip input = [] ∧ fault = .emptyText ∨
      Text.strip input ≠ [] ∧ fault.kind = .malformed ∧ fault.fragment = Text.strip input := by
  simp only [read] at failed
  split at failed
  · next none =>
    cases failed
    exact .inl ⟨none, rfl⟩
  · next some =>
    refine .inr ⟨some, ?_⟩
    unfold ofTokens at failed
    split at failed
    · split at failed
      · cases failed
      · exact Division.fault_of_layer failed
    · split at failed
      · split at failed
        · exact Lead.fault_of_layer failed
        · exact Division.fault_of_layer failed
      · exact Lead.fault_of_layer failed

theorem operand_of_read {input operand : Text} {layer : Layer} (success : read input = .ok layer)
    (member : operand ∈ layer.operands) :
    Text.strip operand ≠ [] ∧ Text.collapse operand <:+: Text.collapse input := by
  obtain ⟨_, reading⟩ := read_eq_ok_iff.mp success
  obtain ⟨proper, within⟩ := reading.operand_spec member
  obtain ⟨trimmed, _, inside⟩ := Text.strip_spec input
  refine ⟨proper, List.IsInfix.trans ?_ (Text.collapse_infix inside)⟩
  rw [Text.collapse_of_trimmed trimmed, ← Text.collapse_unwords_words]
  exact Text.collapse_infix within

end Layer

namespace Formula

/-- A text has the fault of its own layer or of one of the operands. -/
inductive Faulted : Text → Fault → Prop where
  | layer (failed : Layer.read t = .error fault) : Faulted t fault
  | operand (success : Layer.read t = .ok layer) (member : u ∈ layer.operands)
      (inner : Faulted u fault) : Faulted t fault

theorem faulted_of_parse {t : Text} {fault : Fault} (failed : parse t = .error fault) :
    Faulted t fault := by
  induction size : t.length using Nat.strong_induction_on generalizing t with
  | _ n ih =>
    subst size
    have operand {layer : Layer} (success : Layer.read t = .ok layer) {u : Text}
        (member : u ∈ layer.operands) (inner : parse u = .error fault) : Faulted t fault :=
      .operand success member (ih u.length (Layer.length_operand_lt success member) inner rfl)
    rw [parse_eq] at failed
    split at failed
    · next layer =>
      cases failed
      exact .layer layer
    · cases failed
    · next layer =>
      exact operand layer (by simp [Layer.operands]) (map_eq_error_iff.mp failed)
    · next layer =>
      rcases bind_eq_error_iff.mp failed with left | ⟨_, _, later⟩
      · exact operand layer (by simp [Layer.operands]) left
      · rcases bind_eq_error_iff.mp later with right | ⟨_, _, last⟩
        · exact operand layer (by simp [Layer.operands]) right
        · cases last
    · next layer =>
      exact operand layer (by simp [Layer.operands]) (map_eq_error_iff.mp failed)

theorem read_of_fault {t : Text} {fault : Fault} (failed : parse t = .error fault) (line : Nat) :
    read line t = .error ⟨line, fault⟩ := by
  rw [read, failed]
  rfl

theorem Faulted.spec {t : Text} {fault : Fault} (faulted : Faulted t fault) :
    Text.strip t = [] ∧ fault = .emptyText ∨
      Text.strip t ≠ [] ∧ fault.kind = .malformed ∧ fault.fragment ≠ [] ∧
        Text.collapse fault.fragment <:+: Text.collapse t := by
  induction faulted with
  | @layer t fault failed =>
    rcases Layer.fault_of_read failed with none | ⟨some, kind, whole⟩
    · exact .inl none
    · rw [whole]
      exact .inr ⟨some, kind, some, Text.collapse_infix (Text.strip_spec t).2.2⟩
  | operand success member _ ih =>
    obtain ⟨some, _⟩ := Layer.read_eq_ok_iff.mp success
    obtain ⟨proper, within⟩ := Layer.operand_of_read success member
    rcases ih with ⟨none, _⟩ | ⟨_, kind, fragment, inside⟩
    · exact absurd none proper
    · exact .inr ⟨some, kind, fragment, inside.trans within⟩

/-- Reading gives single letters to the quantifiers, and atoms that read as themselves. -/
theorem Parsed.wellFormed {t : Text} {f : Formula} (parsed : Parsed t f) :
    f.WellBound ∧ ∀ a ∈ f.atoms, parse a = .ok (.atom a) := by
  induction parsed with
  | atom layer =>
    refine ⟨by simp [WellBound, binders], ?_⟩
    intro a member
    obtain rfl := List.mem_singleton.mp member
    exact (parse_of_layer layer).2
  | neg _ _ ih => exact ih
  | bin _ _ _ left right =>
    refine ⟨wellBound_bin.mpr ⟨left.1, right.1⟩, ?_⟩
    intro a member
    exact (List.mem_append.mp member).elim (left.2 a) (right.2 a)
  | quant layer _ ih =>
    have single := (Layer.read_eq_ok_iff.mp layer).2.isVariable
    exact ⟨wellBound_quant.mpr ⟨single, ih.1⟩, ih.2⟩

/-- The checked builder of what a layer puts together. The word that spells a connective is
recognised once more. -/
def build (spelling : Text) : Layer → List Formula → Except Fault Formula
  | .atom text, parts => make .atom parts text
  | .neg _, parts => make (.op .neg) parts []
  | .bin .., parts => ofWord spelling parts []
  | .quant q var _, parts => make (.op (.quant q)) parts var

/-- The word that divides a text, if there is one. -/
def dividing (input : Text) : Text :=
  ((Division.find? (Token.ofText (Text.strip input))).map Division.spelling).getD []

theorem ofWord?_dividing {input left right : Text} {c : Connective}
    (success : Layer.read input = .ok (.bin c left right)) :
    Operator.ofWord? (dividing input) = some (.bin c) := by
  obtain ⟨_, reading⟩ := Layer.read_eq_ok_iff.mp success
  cases reading with
  | bin parts spelled flat undivided =>
    rw [dividing, Layer.find?_division_of_parts parts spelled flat undivided]
    exact spelled

/-- Reads the operands of a layer from left to right and leaves all checks to the builders. -/
def assemble (input : Text) : Except Fault Formula := do
  let layer ← Layer.read input
  let parts ← layer.operands.mapM parse
  build (dividing input) layer parts

theorem assemble_of_read {input : Text} {layer : Layer} (success : Layer.read input = .ok layer) :
    assemble input = layer.operands.mapM parse >>= build (dividing input) layer := by
  rw [assemble, success]
  rfl

/-- The builders never refuse what reading gives them. -/
theorem parse_eq_assemble (input : Text) : parse input = assemble input := by
  have mapped (t : Text) (g : Formula → Formula) : (parse t).map g = parse t >>= (.ok ∘ g) := by
    cases parse t <;> rfl
  cases success : Layer.read input with
  | error fault => rw [parse_eq, assemble, success]; rfl
  | ok layer =>
    rw [parse_eq, success, assemble_of_read success]
    cases layer with
    | atom text => rfl
    | neg operand =>
      simp only [mapped, Layer.operands, List.mapM_cons, List.mapM_nil, bind_assoc, pure_bind]
      rfl
    | bin c left right =>
      have built (f g : Formula) :
          build (dividing input) (.bin c left right) [f, g] = .ok (.bin c f g) := by
        simp [build, ofWord, ofWord?_dividing success, make]
      simp only [Layer.operands, List.mapM_cons, List.mapM_nil, bind_assoc, pure_bind, built]
      rfl
    | quant q var body =>
      have single := (Layer.read_eq_ok_iff.mp success).2.isVariable
      have built (f : Formula) :
          build (dividing input) (.quant q var body) [f] = .ok (.quant q var f) := by
        simp [build, make, single]
      simp only [mapped, Layer.operands, List.mapM_cons, List.mapM_nil, bind_assoc, pure_bind,
        built]
      rfl

/-- How reading ends, for every text. It gives a formula, or refuses the text as empty if
nothing but blanks and parentheses around them is there, or refuses a piece of it as malformed.
The checks of the builders never come into it. -/
theorem read_outcome (line : Nat) (input : Text) :
    ((∃ f, read line input = .ok f ∧ Text.strip input ≠ [] ∧ f.WellBound ∧
        ∀ a ∈ f.atoms, ∀ other, read other a = .ok (.atom a)) ∨
      ∃ fault, read line input = .error ⟨line, fault⟩ ∧
        (∃ rest, Located.message Fault.description ⟨line, fault⟩ =
          toString line ++ ": ERROR: " ++ rest) ∧
        (Text.strip input = [] ∧ fault.kind = .emptyText ∧ fault.fragment = [] ∨
          Text.strip input ≠ [] ∧ fault.kind = .malformed ∧ fault.fragment ≠ [] ∧
            Text.collapse fault.fragment <:+: Text.collapse input)) ∧
      (∃ rounds, Text.peel^[rounds] (Text.trim input) = Text.strip input) ∧
      Text.peel (Text.strip input) = Text.strip input ∧
      read line input = (assemble input).mapError (Located.mk line) := by
  obtain ⟨reached, fixed⟩ := Text.exists_iterate_peel input
  refine ⟨?_, reached, fixed, by rw [← parse_eq_assemble, read]⟩
  cases result : parse input with
  | ok f =>
    obtain ⟨bound, atoms⟩ := (parse_eq_ok_iff.mp result).wellFormed
    refine .inl ⟨f, mapError_eq_ok_iff.mpr result, strip_ne_nil_of_parse result, bound, ?_⟩
    intro a member other
    exact mapError_eq_ok_iff.mpr (atoms a member)
  | error fault =>
    refine .inr ⟨fault, read_of_fault result line, Located.exists_message _ _, ?_⟩
    rcases (faulted_of_parse result).spec with ⟨none, rfl⟩ | malformed
    · exact .inl ⟨none, rfl, rfl⟩
    · exact .inr malformed

end Formula
end Turnstile
