import Mathlib.Logic.Function.Basic
import Turnstile.Proofs.Refinement

/-! Truth in first-order structures, where quantifiers range over a domain and bind a variable
within their scope. Putting a name for a variable disregards scopes, so the two readings of a
quantifier agree only where no quantifier binds a variable again that is bound around it. -/
namespace Turnstile

universe u

namespace Text

/-- What stands around the placeholders of a text: all of them get the same inside. -/
def skeleton (t : Text) : Text := mapPlaceholders (fun _ => ['a']) t

theorem skeleton_mapPlaceholders {f : Text → Text} (runs : ∀ w, IsRun w → IsRun (f w)) (t : Text) :
    skeleton (mapPlaceholders f t) = skeleton t :=
  mapPlaceholders_mapPlaceholders runs _ t

end Text

/-- A structure over a domain, which is not empty because every name has an element of it. An atom
is true or not by its skeleton and the values of its placeholders. -/
structure Interpretation (D : Type u) where
  name : Name → D
  atom : Text → List D → Prop

namespace Interpretation

variable {D : Type u} (M : Interpretation D)

/-- The environment gives the values of variables. -/
def value (env : Text → D) (w : Text) : D :=
  if 2 ≤ w.length then M.name w else env w

/-- The same structure, but for the element of one name. -/
def withName (name : Name) (d : D) : Interpretation D :=
  { M with name := Function.update M.name name d }

variable {M} {env : Text → D} {name : Name} {w : Text}

theorem value_withName (d : D) (other : 2 ≤ w.length → w ≠ name) :
    (M.withName name d).value env w = M.value env w := by
  by_cases long : 2 ≤ w.length
  · simp [value, withName, long, Function.update_of_ne (other long)]
  · simp [value, long]

/-- What is put in the place of a variable may be given to the variable as its value. -/
theorem value_replaced {x : Char} (named : Text.isName name = true) :
    M.value env (if w = [x] then name else w) =
      M.value (Function.update env [x] (M.name name)) w := by
  have long := (Text.isName_iff.mp named).1
  by_cases same : w = [x]
  · simp [value, same, long]
  · simp [value, same]

end Interpretation

namespace Formula

/-- Truth in a structure. A quantifier gives its variable a new value within its body. -/
def Satisfied {D : Type u} (M : Interpretation D) (env : Text → D) : Formula → Prop
  | atom text => M.atom (Text.skeleton text) ((Text.placeholders text).map (M.value env))
  | neg body => ¬body.Satisfied M env
  | bin c left right => c.denote (left.Satisfied M env) (right.Satisfied M env)
  | quant q var body => q.quantify fun d => body.Satisfied M (Function.update env var d)

/-- No quantifier binds a variable that a quantifier around it binds. -/
def Unshadowed : Formula → Prop
  | atom _ => True
  | neg body => body.Unshadowed
  | bin _ left right => left.Unshadowed ∧ right.Unshadowed
  | quant _ var body => body.rebinds var = false ∧ body.Unshadowed

instance decidableUnshadowed : (f : Formula) → Decidable f.Unshadowed
  | atom _ => .isTrue trivial
  | neg body => decidableUnshadowed body
  | bin _ left right =>
    @instDecidableAnd _ _ (decidableUnshadowed left) (decidableUnshadowed right)
  | quant _ _ body => @instDecidableAnd _ _ inferInstance (decidableUnshadowed body)

theorem classical_satisfied {D : Type u} (M : Interpretation D) (env : Text → D) :
    Classical (Satisfied M env) :=
  ⟨Iff.rfl, Iff.rfl⟩

variable {D : Type u} {M : Interpretation D} {env : Text → D} {var : Text} {name : Name}
  {f : Formula}

@[simp] theorem unshadowed_instantiate :
    (f.instantiate var name).Unshadowed ↔ f.Unshadowed := by
  induction f <;> simp_all [instantiate, Unshadowed, rebinds]

theorem Unshadowed.child {g : Formula} (unshadowed : f.Unshadowed) (child : g ∈ f.children) :
    g.Unshadowed := by
  cases f with
  | atom text => cases child
  | neg body => exact List.mem_singleton.mp child ▸ unshadowed
  | bin c left right =>
    obtain rfl | rfl : g = left ∨ g = right := by simpa [children] using child
    · exact unshadowed.1
    · exact unshadowed.2
  | quant q var body => exact List.mem_singleton.mp child ▸ unshadowed.2

/-- A name that does not occur may have any element. -/
theorem satisfied_withName {d : D} (absent : name ∉ f.names) :
    f.Satisfied (M.withName name d) env ↔ f.Satisfied M env := by
  induction f generalizing env with
  | atom text =>
    have values : (Text.placeholders text).map ((M.withName name d).value env) =
        (Text.placeholders text).map (M.value env) := by
      apply List.map_congr_left
      intro w member
      apply Interpretation.value_withName
      rintro long rfl
      exact absent (by simp [names, atoms, Text.names, member, long])
    exact iff_of_eq (congrArg (M.atom (Text.skeleton text)) values)
  | neg body ih => exact not_congr (ih absent)
  | bin c left right ihLeft ihRight =>
    simp only [names, atoms, List.flatMap_append, List.mem_append, not_or] at absent
    simp only [Satisfied, ihLeft absent.1, ihRight absent.2]
  | quant q bound body ih => exact q.quantify_congr fun d => ih absent

/-- A variable has the value of the name that is put in its place, if no quantifier binds it on
the way. -/
theorem satisfied_instantiate (single : Text.isVariable var = true)
    (named : Text.isName name = true) (free : f.rebinds var = false) :
    (f.instantiate var name).Satisfied M env ↔
      f.Satisfied M (Function.update env var (M.name name)) := by
  induction f generalizing env with
  | atom text =>
    obtain ⟨x, rfl, letter⟩ := Text.isVariable_iff.mp single
    have runs : ∀ w, Text.IsRun w → Text.IsRun (if w = [x] then name else w) :=
      Text.isRun_replaced (Text.isName_iff.mp named).2
    simp only [instantiate, Satisfied, Text.replacePlaceholder_eq_mapPlaceholders
      (Text.isRun_singleton letter), Text.skeleton_mapPlaceholders runs,
      Text.placeholders_mapPlaceholders runs, List.map_map, Function.comp_def,
      Interpretation.value_replaced named]
  | neg body ih => exact not_congr (ih free)
  | bin c left right ihLeft ihRight =>
    simp only [rebinds, binders, List.contains_append, Bool.or_eq_false_iff] at free
    simp only [instantiate, Satisfied, ihLeft free.1, ihRight free.2]
  | quant q bound body ih =>
    simp only [rebinds, binders, List.contains_cons, Bool.or_eq_false_iff,
      beq_eq_false_iff_ne] at free
    refine q.quantify_congr fun d => ?_
    rw [ih free.2, Function.update_comm free.1]

end Formula

namespace Sequent

/-- In no member does a quantifier bind a variable that a quantifier around it binds. -/
def Unshadowed (s : Sequent) : Prop := ∀ f ∈ s.formulas, f.Unshadowed

instance (s : Sequent) : Decidable s.Unshadowed :=
  inferInstanceAs (Decidable (∀ f ∈ s.formulas, f.Unshadowed))

variable {s rest : Sequent} {side : Side} {f : Formula}

@[simp] theorem unshadowed_push :
    (s.push side f).Unshadowed ↔ f.Unshadowed ∧ s.Unshadowed := by
  simp only [Unshadowed, mem_formulas_push, forall_eq_or_imp]

theorem Principal.unshadowed (principal : s.Principal side f rest) (unshadowed : s.Unshadowed) :
    f.Unshadowed ∧ rest.Unshadowed := by
  simpa [Unshadowed, principal.mem_formulas] using unshadowed

theorem Premises.unshadowed {parents : List Sequent} (table : rest.Premises side f parents)
    (formula : f.Unshadowed) (others : rest.Unshadowed) :
    ∀ parent ∈ parents, parent.Unshadowed := by
  intro parent member g inside
  rcases table.mem_formulas member inside with old | child
  · exact others g old
  · exact formula.child child

section Structures

variable {D : Type u} {M : Interpretation D} {env : Text → D} {q : Quantifier} {var : Text}
  {body : Formula} {name : Name}

/-- An eigenvariable may denote the element that refutes the quantified formula. -/
theorem refutedBy_withName {d : D} (single : Text.isVariable var = true)
    (named : Text.isName name = true) (free : body.rebinds var = false)
    (fresh : name ∉ rest.names) (absent : name ∉ body.names)
    (refuted : rest.RefutedBy (Formula.Satisfied M env))
    (against : side.Against (body.Satisfied M (Function.update env var d))) :
    (rest.push side (body.instantiate var name)).RefutedBy
      (Formula.Satisfied (M.withName name d) env) := by
  have kept : rest.RefutedBy (Formula.Satisfied (M.withName name d) env) := by
    refine (refutedBy_congr fun f member => ?_).mpr refuted
    apply Formula.satisfied_withName
    intro inside
    exact fresh (mem_names.mpr ⟨f, member, inside⟩)
  have denoted : (M.withName name d).name name = d := by simp [Interpretation.withName]
  rw [refutedBy_push, Formula.satisfied_instantiate single named free, denoted,
    Formula.satisfied_withName absent]
  exact ⟨kept, against⟩

/-- What refutes a reusable formula refutes its instance, for the element of the name. -/
theorem Principal.refutedBy_instance (principal : s.Principal side (.quant q var body) rest)
    (rule : Rule.isReusable ⟨.quant q, side⟩ = true) (single : Text.isVariable var = true)
    (named : Text.isName name = true) (free : body.rebinds var = false)
    (refuted : s.RefutedBy (Formula.Satisfied M env)) :
    (rest.push side (body.instantiate var name)).RefutedBy (Formula.Satisfied M env) := by
  obtain ⟨restRefuted, against⟩ := principal.refutedBy_iff.mp refuted
  rw [refutedBy_push, Formula.satisfied_instantiate single named free]
  exact ⟨restRefuted, (Quantifier.against_quantify_of_reusable rule).mp against (M.name name)⟩

end Structures
end Sequent

namespace Derivable

variable {limit depth : Nat} {s : Sequent}

/-- What the calculus derives holds in every structure. -/
theorem not_refutedBy_satisfied (bound : s.WellBound) (unshadowed : s.Unshadowed)
    (derivable : Derivable limit depth s) {D : Type u} (M : Interpretation D) (env : Text → D) :
    ¬s.RefutedBy (Formula.Satisfied M env) := by
  induction derivable generalizing M with
  | initial _ common => exact Sequent.not_refutedBy_of_isInitial common
  | propositional principal table _ ih =>
    intro refuted
    obtain ⟨restBound, formulaBound⟩ := principal.wellBound bound
    obtain ⟨formula, others⟩ := principal.unshadowed unshadowed
    obtain ⟨parent, inside, fails⟩ :=
      (table.refutedBy_iff (Formula.classical_satisfied M env)).mp
        (principal.refutedBy_iff.mp refuted)
    exact ih parent inside (table.wellBound restBound formulaBound parent inside)
      (table.unshadowed formula others parent inside) M fails
  | eigenvariable principal rule named fresh absent _ ih =>
    intro refuted
    obtain ⟨single, restBound, bodyBound⟩ := principal.wellBound_quant bound
    obtain ⟨⟨free, body⟩, others⟩ := principal.unshadowed unshadowed
    obtain ⟨restRefuted, against⟩ := principal.refutedBy_iff.mp refuted
    obtain ⟨d, against⟩ := (Quantifier.against_quantify_of_eigenvariable rule).mp against
    exact ih (Sequent.wellBound_push_instantiate restBound bodyBound) (by simp [body, others])
      (M.withName _ d)
      (Sequent.refutedBy_withName single named free fresh absent restRefuted against)
  | candidate principal rule chosen _ ih =>
    intro refuted
    obtain ⟨single, restBound, bodyBound⟩ := principal.wellBound_quant bound
    obtain ⟨⟨free, body⟩, others⟩ := principal.unshadowed unshadowed
    have named := Sequent.isName_of_mem_candidateNames (mem_of_mem_firstOf chosen)
    exact ih (Sequent.wellBound_push_instantiate restBound bodyBound) (by simp [body, others]) M
      (principal.refutedBy_instance rule single named free refuted)
  | unnamed principal rule none named _ ih =>
    intro refuted
    obtain ⟨single, restBound, bodyBound⟩ := principal.wellBound_quant bound
    obtain ⟨⟨free, body⟩, others⟩ := principal.unshadowed unshadowed
    exact ih (Sequent.wellBound_push_instantiate restBound bodyBound) (by simp [body, others]) M
      (principal.refutedBy_instance rule single named free refuted)

end Derivable

namespace Session

/-- What is proved holds in every structure and environment, if no quantifier binds a variable
again. -/
theorem satisfied_of_proved (session : Session) (clock : Clock) {goal : Sequent}
    (bound : goal.WellBound) (unshadowed : goal.Unshadowed)
    (proved : (session.prove clock goal).1.verdict = .proved) {D : Type u} (M : Interpretation D)
    (env : Text → D) :
    (∃ f ∈ goal.antecedent, ¬f.Satisfied M env) ∨ ∃ f ∈ goal.consequent, f.Satisfied M env := by
  have derivable := Search.derivable_of_visit (Search.verdict_eq_proved.mp proved)
  exact Sequent.not_refutedBy_iff.mp (derivable.not_refutedBy_satisfied bound unshadowed M env)

/-- Names denote their lengths. Both sides bind `x`, which is also free in the second member. -/
theorem satisfied_longer :
    let goal : Sequent :=
      ⟨[.quant .ex ['x'] (.neg (.quant .all ['y'] (.neg (.atom "<x> sees <y>".toList)))),
        .atom "<x> waits".toList],
       [.quant .ex ['x'] (.quant .ex ['y'] (.atom "<x> sees <y>".toList))]⟩
    let M : Interpretation Nat := ⟨List.length, fun text values =>
      text = "<a> sees <a>".toList ∧ values.Pairwise (· < ·)⟩
    let env : Text → Nat := fun _ => 7
    (prove {} (fun _ => 0) goal).1.verdict = .proved ∧
      ((∃ f ∈ goal.antecedent, ¬f.Satisfied M env) ∨ ∃ f ∈ goal.consequent, f.Satisfied M env) := by
  intro goal M env
  have proved : (prove {} (fun _ => 0) goal).1.verdict = .proved := by decide +kernel
  exact ⟨proved, satisfied_of_proved {} (fun _ => 0) (by decide) (by decide) proved M env⟩

-- Where `x` is bound twice, the outer quantifier reaches into the scope of the inner one.
example : (prove {} (fun _ => 0)
    ⟨[.quant .all ['x'] (.quant .ex ['x'] (.atom "<x> runs".toList))],
     [.atom "<ann> runs".toList]⟩).1.verdict = .proved := by
  decide +kernel

end Session
end Turnstile
