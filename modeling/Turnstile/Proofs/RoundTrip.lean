import Turnstile.Proofs.Decomposition
import Turnstile.Proofs.Grammar

/-! Writing a formula and reading it again. Atoms are plain text, so this works only for
atoms that read as themselves, and these are the atoms that reading a text with matched
parentheses gives. -/
namespace Turnstile

section Success

variable {ε δ α β : Type}

theorem bind_eq_ok_iff {x : Except ε α} {g : α → Except ε β} {b : β} :
    (x >>= g) = .ok b ↔ ∃ a, x = .ok a ∧ g a = .ok b := by
  cases x with
  | error fault => simp [bind, Except.bind]
  | ok a => simp [bind, Except.bind]

theorem map_eq_ok_iff {x : Except ε α} {g : α → β} {b : β} :
    x.map g = .ok b ↔ ∃ a, x = .ok a ∧ g a = b := by
  cases x with
  | error fault => simp [Except.map]
  | ok a => simp [Except.map]

theorem mapError_eq_ok_iff {x : Except ε α} {g : ε → δ} {a : α} :
    x.mapError g = .ok a ↔ x = .ok a := by
  cases x with
  | error fault => simp [Except.mapError]
  | ok b => simp [Except.mapError]

end Success

namespace Formula

/-- A formula is read from a layer and from what is read from its operands. -/
inductive Parsed : Text → Formula → Prop where
  | atom (layer : Layer.read t = .ok (.atom u)) : Parsed t (.atom u)
  | neg (layer : Layer.read t = .ok (.neg operand)) (body : Parsed operand f) : Parsed t (.neg f)
  | bin (layer : Layer.read t = .ok (.bin c first second)) (left : Parsed first f)
      (right : Parsed second g) : Parsed t (.bin c f g)
  | quant (layer : Layer.read t = .ok (.quant q var operand)) (body : Parsed operand f) :
      Parsed t (.quant q var f)

theorem parse_eq_ok_iff {t : Text} {f : Formula} : parse t = .ok f ↔ Parsed t f := by
  constructor
  · intro success
    induction size : t.length using Nat.strong_induction_on generalizing t f with
    | _ n ih =>
      subst size
      have operand {layer : Layer} (read : Layer.read t = .ok layer) {u : Text} {g : Formula}
          (member : u ∈ layer.operands) (inner : parse u = .ok g) : Parsed u g :=
        ih u.length (Layer.length_operand_lt read member) inner rfl
      rw [parse_eq] at success
      split at success
      · cases success
      · next layer =>
        cases success
        exact .atom layer
      · next layer =>
        obtain ⟨g, body, rfl⟩ := map_eq_ok_iff.mp success
        exact .neg layer (operand layer (by simp [Layer.operands]) body)
      · next layer =>
        obtain ⟨g, left, later⟩ := bind_eq_ok_iff.mp success
        obtain ⟨h, right, last⟩ := bind_eq_ok_iff.mp later
        cases last
        exact .bin layer (operand layer (by simp [Layer.operands]) left)
          (operand layer (by simp [Layer.operands]) right)
      · next layer =>
        obtain ⟨g, body, rfl⟩ := map_eq_ok_iff.mp success
        exact .quant layer (operand layer (by simp [Layer.operands]) body)
  · intro parsed
    induction parsed with
    | atom layer => rw [parse_eq, layer]
    | neg layer _ body | quant layer _ body =>
      rw [parse_eq, layer]
      exact map_eq_ok_iff.mpr ⟨_, body, rfl⟩
    | bin layer _ _ left right =>
      rw [parse_eq, layer]
      exact bind_eq_ok_iff.mpr ⟨_, left, bind_eq_ok_iff.mpr ⟨_, right, rfl⟩⟩

/-- The text of an atom that reads as this atom, alone and inside of a formula. -/
structure CanonicalAtom (t : Text) : Prop where
  reads : parse t = .ok (.atom t)
  spaced : Text.SingleSpaced t
  balanced : Text.Balanced t

instance (t : Text) : Decidable (CanonicalAtom t) :=
  decidable_of_iff (parse t = .ok (.atom t) ∧ Text.SingleSpaced t ∧ Text.Balanced t)
    ⟨fun ⟨reads, spaced, balanced⟩ => ⟨reads, spaced, balanced⟩,
      fun text => ⟨text.reads, text.spaced, text.balanced⟩⟩

/-- Every atom is canonical, and every quantifier binds a single letter. -/
structure Canonical (f : Formula) : Prop where
  atoms : ∀ t ∈ f.atoms, CanonicalAtom t
  bound : f.WellBound

instance (f : Formula) : Decidable f.Canonical :=
  decidable_of_iff ((∀ t ∈ f.atoms, CanonicalAtom t) ∧ f.WellBound)
    ⟨fun ⟨atoms, bound⟩ => ⟨atoms, bound⟩, fun canonical => ⟨canonical.atoms, canonical.bound⟩⟩

@[simp] theorem canonical_atom {t : Text} : (atom t).Canonical ↔ CanonicalAtom t := by
  constructor
  · intro canonical
    exact canonical.atoms t (by simp [Formula.atoms])
  · intro canonical
    exact ⟨by simpa [Formula.atoms] using canonical, by simp [WellBound, binders]⟩

@[simp] theorem canonical_neg {body : Formula} : (neg body).Canonical ↔ body.Canonical :=
  ⟨fun canonical => ⟨canonical.atoms, canonical.bound⟩,
    fun canonical => ⟨canonical.atoms, canonical.bound⟩⟩

@[simp] theorem canonical_bin {c : Connective} {left right : Formula} :
    (bin c left right).Canonical ↔ left.Canonical ∧ right.Canonical := by
  constructor
  · rintro ⟨atoms, bound⟩
    simp only [Formula.atoms, List.mem_append, or_imp, forall_and, wellBound_bin] at atoms bound
    exact ⟨⟨atoms.1, bound.1⟩, ⟨atoms.2, bound.2⟩⟩
  · rintro ⟨first, second⟩
    refine ⟨?_, wellBound_bin.mpr ⟨first.bound, second.bound⟩⟩
    intro t member
    exact (List.mem_append.mp member).elim (first.atoms t) (second.atoms t)

@[simp] theorem canonical_quant {q : Quantifier} {var : Text} {body : Formula} :
    (quant q var body).Canonical ↔ Text.isVariable var = true ∧ body.Canonical := by
  constructor
  · rintro ⟨atoms, bound⟩
    obtain ⟨single, bodyBound⟩ := wellBound_quant.mp bound
    exact ⟨single, atoms, bodyBound⟩
  · rintro ⟨single, atoms, bodyBound⟩
    exact ⟨atoms, wellBound_quant.mpr ⟨single, bodyBound⟩⟩

/-- Reading takes away what encloses a text before it looks at anything else. -/
theorem parse_congr {s t : Text} (same : Text.strip s = Text.strip t) : parse s = parse t := by
  have layer : Layer.read s = Layer.read t := by rw [Layer.read, same, Layer.read]
  rw [parse_eq, parse_eq t, layer]

theorem parse_wrap {t : Text} (balanced : Text.Balanced t) :
    parse ('(' :: (t ++ [')'])) = parse t :=
  parse_congr (Text.strip_wrap balanced)

theorem strip_ne_nil_of_parse {t : Text} {f : Formula} (success : parse t = .ok f) :
    Text.strip t ≠ [] := by
  intro none
  rw [parse_eq, Layer.read, if_pos none] at success
  cases success

/-- What is known of the text of an atom that reads as itself. -/
theorem reading_of_parse {t : Text} (reads : parse t = .ok (.atom t)) :
    Text.strip t = t ∧ t ≠ [] ∧ (∀ lead, ¬Lead.Leads (Text.words t) lead) ∧
      Division.Absent (Text.words t) := by
  cases parse_eq_ok_iff.mp reads with
  | atom layer =>
    obtain ⟨some, reading⟩ := Layer.read_eq_ok_iff.mp layer
    generalize whole : Text.strip t = s at some reading
    cases reading with
    | atom unled undivided => exact ⟨rfl, some, unled, undivided⟩

theorem parse_of_reading {t : Text} (bare : Text.strip t = t) (some : t ≠ [])
    (unled : ∀ lead, ¬Lead.Leads (Text.words t) lead)
    (undivided : Division.Absent (Text.words t)) : parse t = .ok (.atom t) := by
  refine parse_eq_ok_iff.mpr (.atom (Layer.read_eq_ok_iff.mpr ?_))
  rw [bare]
  exact ⟨some, .atom unled undivided⟩

theorem scoped_bin {left right : Formula} (c : Connective) (first : Text.Balanced left.render)
    (second : Text.Balanced right.render) :
    Text.Scoped (bin c left right).render []
      (left.render ++ ' ' :: ([c.symbol] ++ ' ' :: right.render)) := by
  refine ⟨by simp [render], by simp, rfl, Text.balanced_append first ?_⟩
  have same : Text.parens (' ' :: ([c.symbol] ++ ' ' :: right.render)) =
      Text.parens right.render := by
    cases c <;> rfl
  rwa [Text.Balanced, Text.depth?_congr same]

theorem scoped_quant {var : Text} {body : Formula} (q : Quantifier)
    (single : Text.isVariable var = true) (balanced : Text.Balanced body.render) :
    Text.Scoped (quant q var body).render (q.symbol :: Text.placeholder var) body.render := by
  obtain ⟨x, rfl, letter⟩ := Text.isVariable_iff.mp single
  exact Text.scoped_quantifier q letter balanced

theorem render_spec {f : Formula} (canonical : f.Canonical) :
    Text.SingleSpaced f.render ∧ Text.Balanced f.render ∧ f.render ≠ [] := by
  induction f with
  | atom t =>
    rw [canonical_atom] at canonical
    exact ⟨canonical.spaced, canonical.balanced, (reading_of_parse canonical.reads).2.1⟩
  | neg body ih =>
    obtain ⟨spaced, balanced, _⟩ := ih (canonical_neg.mp canonical)
    have scope := Text.scoped_negation balanced
    exact ⟨scope.singleSpaced spaced, scope.balanced_whole, by simp [render]⟩
  | bin c left right first second =>
    obtain ⟨leftCanonical, rightCanonical⟩ := canonical_bin.mp canonical
    obtain ⟨leftSpaced, leftBalanced, leftSome⟩ := first leftCanonical
    obtain ⟨rightSpaced, rightBalanced, rightSome⟩ := second rightCanonical
    have scope := scoped_bin c leftBalanced rightBalanced
    have symbol : Text.SingleSpaced [c.symbol] :=
      Text.singleSpaced_of_solid (Text.solid_of_all (by cases c <;> rfl))
    have spaced := leftSpaced.append_space
      (symbol.append_space rightSpaced (by simp) rightSome) leftSome (by simp)
    exact ⟨scope.singleSpaced spaced, scope.balanced_whole, by simp [render]⟩
  | quant q var body ih =>
    obtain ⟨single, bodyCanonical⟩ := canonical_quant.mp canonical
    obtain ⟨spaced, balanced, _⟩ := ih bodyCanonical
    have scope := scoped_quant q single balanced
    exact ⟨scope.singleSpaced spaced, scope.balanced_whole, by simp [render]⟩

/-- A canonical formula does not start with a keyword, and no connective of it stands outside
all parentheses. -/
theorem render_closed {f : Formula} (canonical : f.Canonical) :
    (∀ v ∈ (Text.words f.render).head?, ¬Lead.IsKeyword v) ∧
      Division.Absent (Text.words f.render) := by
  have compound {mark body : Text} (scope : Text.Scoped f.render mark body) :
      (∀ v ∈ (Text.words f.render).head?, ¬Lead.IsKeyword v) ∧
        Division.Absent (Text.words f.render) := by
    refine ⟨?_, scope.absent⟩
    intro v first
    obtain ⟨w, ws, start⟩ := scope.exists_words
    rw [start] at first
    cases first
    exact Lead.not_isKeyword_of_mem (by simp)
  cases f with
  | atom t =>
    obtain ⟨_, _, unled, undivided⟩ := reading_of_parse (canonical_atom.mp canonical).reads
    refine ⟨?_, undivided⟩
    intro v first keyword
    obtain ⟨ws, start⟩ := List.head?_eq_some_iff.mp first
    obtain ⟨lead, leads⟩ := Lead.exists_leads_of_isKeyword keyword ws
    exact unled lead (by rwa [← start] at leads)
  | neg body => exact compound (Text.scoped_negation (render_spec (canonical_neg.mp canonical)).2.1)
  | bin c left right =>
    obtain ⟨first, second⟩ := canonical_bin.mp canonical
    exact compound (scoped_bin c (render_spec first).2.1 (render_spec second).2.1)
  | quant q var body =>
    obtain ⟨single, inside⟩ := canonical_quant.mp canonical
    exact compound (scoped_quant q single (render_spec inside).2.1)

theorem parse_render {f : Formula} (canonical : f.Canonical) : parse f.render = .ok f := by
  induction f with
  | atom t => exact (canonical_atom.mp canonical).reads
  | neg body ih =>
    have inside := canonical_neg.mp canonical
    obtain ⟨spaced, balanced, _⟩ := render_spec inside
    have proper := strip_ne_nil_of_parse (ih inside)
    have scope := (parse_wrap balanced).trans (ih inside)
    exact parse_eq_ok_iff.mpr
      (.neg (Layer.read_glued_neg spaced balanced proper) (parse_eq_ok_iff.mp scope))
  | bin c left right first second =>
    obtain ⟨leftCanonical, rightCanonical⟩ := canonical_bin.mp canonical
    obtain ⟨leftSpaced, leftBalanced, _⟩ := render_spec leftCanonical
    obtain ⟨rightSpaced, rightBalanced, _⟩ := render_spec rightCanonical
    obtain ⟨free, undivided⟩ := render_closed leftCanonical
    have leftRead := first leftCanonical
    have rightRead := second rightCanonical
    have scope := scoped_bin c leftBalanced rightBalanced
    rw [scope.parts, List.nil_append, parse_wrap scope.balanced]
    refine parse_eq_ok_iff.mpr
      (.bin ?_ (parse_eq_ok_iff.mp leftRead) (parse_eq_ok_iff.mp rightRead))
    exact Layer.read_bin leftSpaced rightSpaced leftBalanced (strip_ne_nil_of_parse leftRead)
      (strip_ne_nil_of_parse rightRead) (Operator.ofWord?_symbol (.bin c)) free undivided
  | quant q var body ih =>
    obtain ⟨single, inside⟩ := canonical_quant.mp canonical
    obtain ⟨x, rfl, letter⟩ := Text.isVariable_iff.mp single
    obtain ⟨spaced, balanced, _⟩ := render_spec inside
    have proper := strip_ne_nil_of_parse (ih inside)
    have scope := (parse_wrap balanced).trans (ih inside)
    exact parse_eq_ok_iff.mpr (.quant (Layer.read_glued_quant q letter spaced balanced proper)
      (parse_eq_ok_iff.mp scope))

/-- A formula that reads as itself when it stands alone. Only inside of another formula does
the spacing of an atom matter. -/
def Legible : Formula → Prop
  | atom t => parse t = .ok (.atom t) ∧ Text.Balanced t
  | f => f.Canonical

theorem Canonical.legible {f : Formula} (canonical : f.Canonical) : f.Legible := by
  cases f with
  | atom t =>
    have text := canonical_atom.mp canonical
    exact ⟨text.reads, text.balanced⟩
  | neg | bin | quant => exact canonical

theorem Legible.parse_render {f : Formula} (legible : f.Legible) : parse f.render = .ok f := by
  cases f with
  | atom t => exact legible.1
  | neg | bin | quant => exact Formula.parse_render legible

theorem parse_of_layer {t u : Text} (layer : Layer.read t = .ok (.atom u)) :
    u = Text.strip t ∧ parse u = .ok (.atom u) := by
  have same := (Layer.read_eq_ok_iff.mp layer).2.eq_of_atom
  refine ⟨same, ?_⟩
  rw [same, parse_congr (Text.strip_strip t), ← same]
  exact parse_eq_ok_iff.mpr (.atom layer)

/-- Reading a text with matched parentheses gives canonical formulas. The spacing of the text
matters only if all of it is one atom, since operands are set with single spaces. -/
theorem Parsed.canonical {t : Text} {f : Formula} (parsed : Parsed t f)
    (balanced : Text.Balanced t) (spacing : f.isAtom = true → Text.Tight t) : f.Canonical := by
  have operands {t : Text} {layer : Layer} (read : Layer.read t = .ok layer)
      (balanced : Text.Balanced t) : ∀ u ∈ layer.operands, Text.Balanced u ∧ Text.Tight u := by
    intro u member
    have reading := (Layer.read_eq_ok_iff.mp read).2
    exact ⟨reading.balanced_operand (Text.balanced_strip balanced) member,
      reading.tight_operand member⟩
  induction parsed with
  | @atom t u layer =>
    obtain ⟨rfl, reads⟩ := parse_of_layer layer
    obtain ⟨trimmed, _, within⟩ := Text.strip_spec t
    have tight := List.IsChain.infix (spacing rfl) within
    exact canonical_atom.mpr
      ⟨reads, Text.singleSpaced_iff.mpr ⟨tight, trimmed⟩, Text.balanced_strip balanced⟩
  | neg layer _ ih =>
    obtain ⟨inside, tight⟩ := operands layer balanced _ List.mem_cons_self
    exact canonical_neg.mpr (ih inside fun _ => tight)
  | bin layer _ _ left right =>
    have both := operands layer balanced
    obtain ⟨leftInside, leftTight⟩ := both _ List.mem_cons_self
    obtain ⟨rightInside, rightTight⟩ := both _ (List.mem_cons_of_mem _ List.mem_cons_self)
    exact canonical_bin.mpr
      ⟨left leftInside fun _ => leftTight, right rightInside fun _ => rightTight⟩
  | quant layer _ ih =>
    have single := (Layer.read_eq_ok_iff.mp layer).2.isVariable
    obtain ⟨inside, tight⟩ := operands layer balanced _ List.mem_cons_self
    exact canonical_quant.mpr ⟨single, ih inside fun _ => tight⟩

theorem legible_of_parse {t : Text} {f : Formula} (balanced : Text.Balanced t)
    (success : parse t = .ok f) : f.Legible := by
  have parsed := parse_eq_ok_iff.mp success
  by_cases atomic : f.isAtom = true
  · cases parsed with
    | atom layer =>
      obtain ⟨rfl, reads⟩ := parse_of_layer layer
      exact ⟨reads, Text.balanced_strip balanced⟩
    | neg | bin | quant => cases atomic
  · exact (parsed.canonical balanced fun one => absurd one atomic).legible

/-- A canonical formula is read from its own text, so no other one has this text. -/
theorem read_render_of_canonical {f : Formula} (canonical : f.Canonical) :
    (∀ line, read line f.render = .ok f) ∧
      ∀ g : Formula, g.Canonical → g.render = f.render → g = f := by
  have own := parse_render canonical
  refine ⟨fun line => mapError_eq_ok_iff.mpr own, ?_⟩
  intro g other same
  rw [← same, parse_render other] at own
  exact Except.ok.inj own

/-- One atom has a connective inside of its parentheses, the other one starts with a symbol. -/
theorem read_render_connective_in_atom :
    let f : Formula := .quant .all ['x']
      (.bin .cond (.neg (.atom "f(a and <x>)".toList)) (.atom "~b <x>".toList))
    (∀ line, read line f.render = .ok f) ∧
      ∀ g : Formula, g.Canonical → g.render = f.render → g = f :=
  read_render_of_canonical (by decide +kernel)

/-- What was read from a text with matched parentheses is read again from its own text. -/
theorem read_render_of_read {t : Text} {f : Formula} {line : Nat} (balanced : Text.Balanced t)
    (success : read line t = .ok f) (other : Nat) : read other f.render = .ok f := by
  have legible := legible_of_parse balanced (mapError_eq_ok_iff.mp success)
  exact mapError_eq_ok_iff.mpr legible.parse_render

theorem read_render_uneven_spacing :
    let t : Text := " ( exists  <x>\t( f(a or  <x>) &\t~b )) implies  not ((c)) ".toList
    let f : Formula := .bin .cond
      (.quant .ex ['x'] (.bin .conj (.atom "f(a or <x>)".toList) (.atom "~b".toList)))
      (.neg (.atom "c".toList))
    read 1 t = .ok f ∧ read 2 f.render = .ok f := by
  intro t f
  have success : read 1 t = .ok f := by decide +kernel
  exact ⟨success, read_render_of_read (by decide +kernel) success 2⟩

end Formula
end Turnstile
