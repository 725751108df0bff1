import Turnstile.Proofs.Collapse
import Turnstile.Proofs.Listing

/-! The names that a text mentions. A placeholder has neither blanks nor any character of
what formulas and sequents are cut at, so it lies in one piece at every cut, and the atoms
mention the same names in the same order as the text they are read from. -/
namespace Turnstile

namespace Text

/-- A mark that no placeholder can reach into. -/
structure Foreign (mark : Text) : Prop where
  proper : mark ≠ []
  outside : ∀ c ∈ mark, isLetter c = false ∧ c ≠ '<' ∧ c ≠ '>'

theorem Separator.foreignMark {mark : Text} (separator : Separator mark) : Foreign mark := by
  refine ⟨separator.word.proper, fun c member => ⟨(separator.foreign c member).1, ?_, ?_⟩⟩
  · exact ne_of_mem_of_not_mem member (separator.not_mem (by decide))
  · exact ne_of_mem_of_not_mem member (separator.not_mem (by decide))

theorem foreign_singleton {c : Char} (outside : isLetter c = false ∧ c ≠ '<' ∧ c ≠ '>') :
    Foreign [c] := by
  refine ⟨by simp, fun d member => ?_⟩
  rwa [List.mem_singleton.mp member]

theorem foreign_blank {c : Char} (blank : isBlank c = true) : Foreign [c] := by
  refine foreign_singleton ⟨?_, ?_, ?_⟩
  · rw [← Bool.not_eq_true]
    intro letter
    rw [isBlank_of_isLetter letter] at blank
    cases blank
  · rintro rfl
    cases blank
  · rintro rfl
    cases blank

theorem Foreign.placeholders_cut {mark : Text} (foreign : Foreign mark) (s t : Text) :
    placeholders (s ++ mark ++ t) = placeholders s ++ placeholders t := by
  obtain ⟨c, mark, rfl⟩ := List.exists_cons_of_ne_nil foreign.proper
  obtain ⟨other, _, unclosed⟩ := foreign.outside c List.mem_cons_self
  have inside : placeholders (c :: mark ++ t) = placeholders t :=
    placeholders_append (fun d member => (foreign.outside d member).2.1) t
  rw [List.append_assoc, List.cons_append, placeholders_append_cons other unclosed,
    ← List.cons_append, inside]

theorem Foreign.names_cut {mark : Text} (foreign : Foreign mark) (s t : Text) :
    names (s ++ mark ++ t) = names s ++ names t := by
  rw [names, foreign.placeholders_cut, List.filter_append, names, names]

@[simp] theorem names_nil : names [] = [] := rfl

theorem names_eq_nil {t : Text} (closed : '<' ∉ t) : names t = [] := by
  have none := placeholders_append (fun c member => ne_of_mem_of_not_mem member closed) []
  rw [List.append_nil] at none
  rw [names, none]
  rfl

theorem names_cons {c : Char} (other : c ≠ '<') (t : Text) : names (c :: t) = names t := by
  simp [names, placeholders, other]

/-- A variable is no name. -/
theorem names_variable {x : Char} (letter : isLetter x = true) (t : Text) :
    names ('<' :: x :: '>' :: t) = names t := by
  have mark := placeholders_mark (isRun_singleton letter) t
  simp only [placeholder, List.cons_append, List.nil_append] at mark
  simp [names, mark]

theorem names_wrap (t : Text) : names ('(' :: (t ++ [')'])) = names t := by
  have close := (foreign_singleton (c := ')') (by decide)).names_cut t []
  rw [List.append_nil, names_nil, List.append_nil] at close
  rw [names_cons (by decide), close]

theorem names_unwords (ws : List Text) : names (unwords ws) = ws.flatMap names := by
  induction ws with
  | nil => rfl
  | cons w ws ih =>
    by_cases last : ws = []
    · simp [last]
    · have cut := (foreign_blank (c := ' ') rfl).names_cut w (unwords ws)
      rw [List.append_assoc, List.singleton_append] at cut
      rw [unwords_cons w last, cut, ih, List.flatMap_cons]

/-- Names lie within words. -/
theorem names_words (t : Text) : (words t).flatMap names = names t := by
  induction size : t.length using Nat.strong_induction_on generalizing t with
  | _ n ih =>
    subst size
    obtain ⟨w, rest, rfl, solid, boundary⟩ := exists_boundary t
    have first : (words w).flatMap names = names w := by
      by_cases none : w = []
      · simp [none]
      · simp [words_of_isWord ⟨none, solid⟩]
    cases rest with
    | nil => rwa [List.append_nil]
    | cons c rest =>
      have blank : isBlank c = true := by simpa using boundary
      have cut := (foreign_blank blank).names_cut w rest
      rw [List.append_assoc, List.singleton_append] at cut
      have shorter : rest.length < (w ++ c :: rest).length := by
        rw [List.length_append, List.length_cons]
        omega
      rw [words_append_blank w rest blank, List.flatMap_append, first, ih _ shorter rest rfl, cut]

theorem names_trim (t : Text) : names (trim t) = names t := by
  rw [← names_words, words_trim, names_words]

theorem names_strip (t : Text) : names (strip t) = names t := by
  fun_induction strip t with
  | case1 t bare => exact names_trim t
  | case2 t inside found ih =>
    rw [ih, ← names_trim t, (inner?_eq_some_iff.mp found).1, names_wrap]

theorem Foreign.names_split {mark : Text} (foreign : Foreign mark) (t : Text) :
    (split mark t).flatMap names = names t := by
  fun_induction split mark t with
  | case1 t absent => simp
  | case2 t before after found ih =>
    rw [(eq_of_cut? found).2, foreign.names_cut, List.flatMap_cons, ih]

end Text

theorem Operator.names_of_ofWord? {w : Text} {operator : Operator}
    (spelled : ofWord? w = some operator) : Text.names w = [] :=
  Text.names_eq_nil (not_mem_of_ofWord? spelled).2.2

theorem Lead.Leads.names_rest {ws : List Text} {lead : Lead} (leads : Leads ws lead) :
    Text.names lead.rest = ws.flatMap Text.names := by
  cases leads with
  | negation spelled | quantifier spelled =>
    rw [Text.names_unwords, List.flatMap_cons, Operator.names_of_ofWord? spelled, List.nil_append]
  | gluedNegation =>
    rw [Text.names_unwords, List.flatMap_cons, List.flatMap_cons,
      Text.names_cons (by decide) (_ :: _)]
  | @gluedQuantifier _ q =>
    rw [Text.names_unwords, List.flatMap_cons, List.flatMap_cons,
      Text.names_cons (c := q.symbol) (by cases q <;> decide)]

/-- No name is in what a layer leaves out of its text. -/
theorem Layer.Reading.names_operands {t : Text} {layer : Layer} (reading : Reading t layer)
    (compound : layer.operands ≠ []) : layer.operands.flatMap Text.names = Text.names t := by
  rw [← Text.names_words t]
  cases reading with
  | atom => exact absurd rfl compound
  | neg leads => simpa [operands] using leads.names_rest
  | quant leads _ letter => simpa [operands, Text.names_variable letter] using leads.names_rest
  | bin parts spelled =>
    simp [operands, parts, Text.names_unwords, Operator.names_of_ofWord? spelled]

namespace Formula

theorem Parsed.names_eq {t : Text} {f : Formula} (parsed : Parsed t f) :
    f.names = Text.names t := by
  have operands {t : Text} {layer : Layer} (read : Layer.read t = .ok layer)
      (compound : layer.operands ≠ []) : layer.operands.flatMap Text.names = Text.names t := by
    rw [(Layer.read_eq_ok_iff.mp read).2.names_operands compound, Text.names_strip]
  induction parsed with
  | @atom t u layer =>
    rw [(parse_of_layer layer).1, names, atoms, List.flatMap_singleton, Text.names_strip]
  | neg layer _ ih =>
    rw [← operands layer (by simp [Layer.operands])]
    simpa [Layer.operands, names, atoms] using ih
  | bin layer _ _ left right =>
    rw [← operands layer (by simp [Layer.operands])]
    simpa [Layer.operands, names, atoms] using congrArg₂ (· ++ ·) left right
  | quant layer _ ih =>
    rw [← operands layer (by simp [Layer.operands])]
    simpa [Layer.operands, names, atoms] using ih

end Formula

namespace Sequent

theorem names_of_map_parse {pieces : List Text} {members : List Formula}
    (each : pieces.map Formula.parse = members.map .ok) :
    members.flatMap Formula.names = pieces.flatMap Text.names := by
  induction members generalizing pieces with
  | nil => simp [List.map_eq_nil_iff.mp each]
  | cons f members ih =>
    obtain ⟨piece, rest, rfl, own, others⟩ := List.map_eq_cons_iff.mp each
    rw [List.flatMap_cons, List.flatMap_cons, (Formula.parse_eq_ok_iff.mp own).names_eq, ih others]

theorem names_of_parseMembers {side : Text} {members : List Formula}
    (success : parseMembers side = .ok members) :
    members.flatMap Formula.names = Text.names side := by
  rw [parseMembers_eq_ok_iff] at success
  split at success
  · next blank => rw [success, ← Text.names_trim, blank]; rfl
  · rw [names_of_map_parse success, (separator_of_mem (by decide)).foreignMark.names_split]

theorem names_of_parse {input : Text} {goal : Sequent} (success : parse input = .ok goal) :
    goal.names = (Text.names input).eraseDups := by
  obtain ⟨left, right, sides, first, second⟩ := parse_eq_ok_iff.mp success
  have separator := separator_of_mem (by decide : turnstile ∈ separators)
  have whole := separator.foreignMark.names_split input
  rw [sides, List.flatMap_cons, List.flatMap_singleton] at whole
  rw [names, formulas, List.flatMap_append, names_of_parseMembers first,
    names_of_parseMembers second, whole]

end Sequent

/-- Reading loses, adds and moves no name, so what is reserved for a goal is every name that
its text mentions. -/
theorem names_kept_by_reading (line : Nat) (input : Text) :
    (∀ f, Formula.read line input = .ok f → f.names = Text.names input) ∧
    ∀ goal, Sequent.read line input = .ok goal →
      goal.names = (Text.names input).eraseDups ∧
      ∀ (supply : NameSupply) (name : Name), name ∈ Text.names input →
        (supply.reserve goal.names).isTaken name = true := by
  constructor
  · intro f success
    exact (Formula.parse_eq_ok_iff.mp (mapError_eq_ok_iff.mp success)).names_eq
  · intro goal success
    have names := Sequent.names_of_parse (mapError_eq_ok_iff.mp success)
    refine ⟨names, fun supply name member => ?_⟩
    rw [NameSupply.isTaken_reserve, names]
    simp [List.mem_eraseDups, member]

/-- A mark stands before a mark, a blank divides a placeholder at a keyword, and a name comes
twice. -/
theorem names_kept_by_reading_crossing_marks :
    let formula : Text := "∀<x>(<<bo>> sees <x>) & <cy > not <di>".toList
    let f : Formula := .bin .conj (.quant .all ['x'] (.atom "<<bo>> sees <x>".toList))
      (.bin .cond (.atom "<cy".toList) (.neg (.atom "<di>".toList)))
    let sequent : Text := "<<bo>> runs > (<al>),( <bo> ) |~ exists <y> <<y>".toList
    let goal : Sequent := ⟨[.bin .cond (.atom "<<bo>> runs".toList) (.atom "<al>".toList),
      .atom "<bo>".toList], [.quant .ex ['y'] (.atom "<<y>".toList)]⟩
    Formula.read 1 formula = .ok f ∧ f.names = ["bo".toList, "di".toList] ∧
      Sequent.read 1 sequent = .ok goal ∧ goal.names = ["bo".toList, "al".toList] ∧
      (NameSupply.reserve {} goal.names).isTaken "al".toList = true := by
  intro formula f sequent goal
  have first : Formula.read 1 formula = .ok f := by decide +kernel
  have second : Sequent.read 1 sequent = .ok goal := by decide +kernel
  have own := (names_kept_by_reading 1 formula).1 f first
  obtain ⟨names, taken⟩ := (names_kept_by_reading 1 sequent).2 goal second
  exact ⟨first, own.trans (by decide), second, names.trans (by decide), taken {} _ (by decide)⟩

end Turnstile
