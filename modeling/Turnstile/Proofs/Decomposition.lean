import Mathlib.Tactic.Tauto
import Turnstile.Proofs.Renaming

/-! What one step of the calculus can do, said once. The choice of the principal
formula, the rule table and the four kinds of branches are relations; later proofs go by their
cases and do not unfold the functions that compute them. -/
namespace Turnstile

namespace Formula

@[simp] theorem wellBound_neg {body : Formula} : (neg body).WellBound ↔ body.WellBound := Iff.rfl

@[simp] theorem wellBound_bin {c : Connective} {left right : Formula} :
    (bin c left right).WellBound ↔ left.WellBound ∧ right.WellBound := by
  simp only [WellBound, binders, List.mem_append, or_imp, forall_and]

@[simp] theorem wellBound_quant {q : Quantifier} {var : Text} {body : Formula} :
    (quant q var body).WellBound ↔ Text.isVariable var = true ∧ body.WellBound := by
  simp only [WellBound, binders, List.mem_cons, forall_eq_or_imp]

theorem mem_atoms_of_child {f g : Formula} (child : g ∈ f.children) {t : Text}
    (member : t ∈ g.atoms) : t ∈ f.atoms := by
  cases f <;> simp only [children, List.mem_cons, List.not_mem_nil, or_false] at child
  case neg | quant => exact child ▸ member
  case bin c left right =>
    rcases child with rfl | rfl <;> simp [atoms, member]

@[simp] theorem wellBound_instantiate {var name : Text} {f : Formula} :
    (f.instantiate var name).WellBound ↔ f.WellBound := by
  simp only [WellBound, binders_instantiate]

end Formula

namespace Sequent

/-- Every quantifier of every member binds a single letter. -/
def WellBound (s : Sequent) : Prop := ∀ f ∈ s.formulas, f.WellBound

instance (s : Sequent) : Decidable s.WellBound :=
  inferInstanceAs (Decidable (∀ f ∈ s.formulas, f.WellBound))

@[simp] theorem mem_formulas_push {s : Sequent} {side : Side} {f g : Formula} :
    g ∈ (s.push side f).formulas ↔ g = f ∨ g ∈ s.formulas := by
  cases side <;> simp [push, formulas, members, withMembers] <;> tauto

@[simp] theorem wellBound_push {s : Sequent} {side : Side} {f : Formula} :
    (s.push side f).WellBound ↔ s.WellBound ∧ f.WellBound := by
  simp only [WellBound, mem_formulas_push, forall_eq_or_imp, and_comm]

theorem wellBound_push_instantiate {rest : Sequent} {side : Side} {var name : Text}
    {body : Formula} (restBound : rest.WellBound) (bodyBound : body.WellBound) :
    (rest.push side (body.instantiate var name)).WellBound :=
  wellBound_push.mpr ⟨restBound, Formula.wellBound_instantiate.mpr bodyBound⟩

@[simp] theorem total_append (measure : Formula → Nat) (l l' : List Formula) :
    total measure (l ++ l') = total measure l + total measure l' := by
  induction l with
  | nil => simp [total]
  | cons f l ih => simp [total, ih, Nat.add_assoc]

@[simp] theorem size_push (s : Sequent) (side : Side) (f : Formula) :
    (s.push side f).size = s.size + f.size := by
  cases side <;> simp [push, size, formulas, members, withMembers, total] <;> omega

/-- The first compound member, its side, and the sequent without it. All members
before it are atoms, and the antecedent comes before the consequent. -/
inductive Principal : Sequent → Side → Formula → Sequent → Prop where
  | antecedent (atoms : ∀ f ∈ before, f.isAtom = true) (compound : f.isAtom = false) :
      Principal ⟨before ++ f :: after, right⟩ .antecedent f ⟨before ++ after, right⟩
  | consequent (leftAtoms : ∀ f ∈ left, f.isAtom = true)
      (atoms : ∀ f ∈ before, f.isAtom = true) (compound : f.isAtom = false) :
      Principal ⟨left, before ++ f :: after⟩ .consequent f ⟨left, before ++ after⟩

theorem splitCompound_append {before after : List Formula} {f : Formula}
    (atoms : ∀ g ∈ before, g.isAtom = true) (compound : f.isAtom = false) :
    splitCompound (before ++ f :: after) = some (before, f, after) := by
  induction before with
  | nil => simp [splitCompound, compound]
  | cons g before ih =>
    simp [splitCompound, atoms g (by simp), ih fun h member => atoms h (by simp [member])]

theorem principal_of_focus? {s : Sequent} {focus : Focus} (found : s.focus? = some focus) :
    s.Principal focus.side focus.principal focus.rest := by
  obtain ⟨left, right⟩ := s
  cases split : splitCompound left with
  | some parts =>
    obtain ⟨before, f, after⟩ := parts
    obtain ⟨rfl, compound, atoms⟩ := splitCompound_eq_some split
    simp only [focus?, focusOn, members, split, Option.map_some, withMembers,
      Option.orElse_eq_orElse, Option.orElse_some, Option.some.injEq] at found
    subst focus
    exact .antecedent atoms compound
  | none =>
    have leftAtoms := splitCompound_eq_none_iff.mp split
    simp only [focus?, focusOn, members, split, Option.map_none, withMembers,
      Option.orElse_eq_orElse, Option.orElse_none] at found
    obtain ⟨⟨before, f, after⟩, inside, rfl⟩ := Option.map_eq_some_iff.mp found
    obtain ⟨rfl, compound, atoms⟩ := splitCompound_eq_some inside
    exact .consequent leftAtoms atoms compound

theorem focus?_of_principal {s rest : Sequent} {side : Side} {f : Formula}
    (principal : s.Principal side f rest) : ∃ index, s.focus? = some ⟨side, index, f, rest⟩ := by
  cases principal with
  | antecedent atoms compound =>
    simp [focus?, focusOn, members, withMembers, splitCompound_append atoms compound]
  | consequent leftAtoms atoms compound =>
    simp [focus?, focusOn, members, withMembers, splitCompound_append atoms compound,
      splitCompound_eq_none_iff.mpr leftAtoms]

namespace Principal

variable {s rest : Sequent} {side : Side} {f : Formula}

theorem unique {otherSide : Side} {g : Formula} {other : Sequent}
    (first : s.Principal side f rest) (second : s.Principal otherSide g other) :
    side = otherSide ∧ f = g ∧ rest = other := by
  obtain ⟨i, one⟩ := focus?_of_principal first
  obtain ⟨j, two⟩ := focus?_of_principal second
  rw [one] at two
  cases two
  exact ⟨rfl, rfl, rfl⟩

theorem compound (principal : s.Principal side f rest) : f.isAtom = false := by
  cases principal with
  | antecedent _ compound => exact compound
  | consequent _ _ compound => exact compound

theorem not_atomic (principal : s.Principal side f rest) : s.isAtomic = false := by
  obtain ⟨index, found⟩ := focus?_of_principal principal
  rw [← Bool.not_eq_true, ← focus?_eq_none_iff, found]
  simp

theorem mem_formulas (principal : s.Principal side f rest) (g : Formula) :
    g ∈ s.formulas ↔ g = f ∨ g ∈ rest.formulas := by
  cases principal <;> simp [formulas] <;> tauto

theorem wellBound (principal : s.Principal side f rest) (bound : s.WellBound) :
    rest.WellBound ∧ f.WellBound := by
  constructor
  · intro g member
    exact bound g ((principal.mem_formulas g).mpr (.inr member))
  · exact bound f ((principal.mem_formulas f).mpr (.inl rfl))

/-- The bounds that a quantifier rule needs, for the rest and for every instance. -/
theorem wellBound_quant {q : Quantifier} {var : Text} {body : Formula}
    (principal : s.Principal side (.quant q var body) rest) (bound : s.WellBound) :
    Text.isVariable var = true ∧ rest.WellBound ∧ body.WellBound := by
  obtain ⟨restBound, formulaBound⟩ := principal.wellBound bound
  obtain ⟨single, bodyBound⟩ := Formula.wellBound_quant.mp formulaBound
  exact ⟨single, restBound, bodyBound⟩

theorem size_eq (principal : s.Principal side f rest) : s.size = rest.size + f.size := by
  cases principal <;> simp [size, formulas, total] <;> omega

theorem rename (r : Renaming) (principal : s.Principal side f rest) :
    (s.rename r).Principal side (f.rename r) (rest.rename r) := by
  have renamed : ∀ {l : List Formula}, (∀ g ∈ l, g.isAtom = true) →
      ∀ g ∈ l.map (Formula.rename r), g.isAtom = true := by
    intro l atoms g member
    obtain ⟨h, inside, rfl⟩ := List.mem_map.mp member
    simpa using atoms h inside
  cases principal with
  | antecedent atoms compound =>
    simpa [Sequent.rename] using Principal.antecedent (renamed atoms) (by simpa using compound)
  | consequent leftAtoms atoms compound =>
    simpa [Sequent.rename] using
      Principal.consequent (renamed leftAtoms) (renamed atoms) (by simpa using compound)

theorem rename_quant (r : Renaming) {q : Quantifier} {var : Text} {body : Formula}
    (principal : s.Principal side (.quant q var body) rest) :
    (s.rename r).Principal side (.quant q var (body.rename r)) (rest.rename r) :=
  principal.rename r

end Principal

/-- The table of the propositional rules: what becomes of a member that stood on a
side of `rest`. All of the parents are needed. -/
inductive Premises (rest : Sequent) : Side → Formula → List Sequent → Prop where
  | negLeft : Premises rest .antecedent (.neg a) [rest.push .consequent a]
  | negRight : Premises rest .consequent (.neg a) [rest.push .antecedent a]
  | condLeft : Premises rest .antecedent (.bin .cond a b)
      [rest.push .consequent a, rest.push .antecedent b]
  | condRight : Premises rest .consequent (.bin .cond a b)
      [(rest.push .antecedent a).push .consequent b]
  | conjLeft : Premises rest .antecedent (.bin .conj a b)
      [(rest.push .antecedent a).push .antecedent b]
  | conjRight : Premises rest .consequent (.bin .conj a b)
      [rest.push .consequent a, rest.push .consequent b]
  | disjLeft : Premises rest .antecedent (.bin .disj a b)
      [rest.push .antecedent a, rest.push .antecedent b]
  | disjRight : Premises rest .consequent (.bin .disj a b)
      [(rest.push .consequent a).push .consequent b]

theorem premises_neg_iff {rest : Sequent} {side : Side} {body : Formula}
    {parents : List Sequent} :
    rest.Premises side (.neg body) parents ↔ parents = rest.negationParents side body := by
  constructor
  · intro table
    cases table <;> rfl
  · rintro rfl
    cases side with
    | antecedent => exact .negLeft
    | consequent => exact .negRight

theorem premises_bin_iff {rest : Sequent} {side : Side} {c : Connective} {left right : Formula}
    {parents : List Sequent} :
    rest.Premises side (.bin c left right) parents ↔
      parents = rest.connectiveParents c side left right := by
  constructor
  · intro table
    cases table <;> rfl
  · rintro rfl
    cases c <;> cases side <;> constructor

theorem premises_quant {rest : Sequent} {side : Side} {q : Quantifier} {var : Text}
    {body : Formula} {parents : List Sequent} :
    ¬rest.Premises side (.quant q var body) parents := by
  intro table
  cases table

namespace Premises

variable {rest : Sequent} {side : Side} {f : Formula} {parents : List Sequent}

theorem unique {others : List Sequent} (first : rest.Premises side f parents)
    (second : rest.Premises side f others) : parents = others := by
  cases first <;> cases second <;> rfl

theorem wellBound (table : rest.Premises side f parents) (restBound : rest.WellBound)
    (bound : f.WellBound) : ∀ parent ∈ parents, parent.WellBound := by
  cases table <;> simp_all

theorem mem_formulas (table : rest.Premises side f parents) {parent : Sequent}
    (member : parent ∈ parents) {g : Formula} (inside : g ∈ parent.formulas) :
    g ∈ rest.formulas ∨ g ∈ f.children := by
  cases table <;> simp only [List.mem_cons, List.not_mem_nil, or_false] at member <;>
    rcases member with rfl | rfl <;> simp only [mem_formulas_push] at inside <;>
    simp only [Formula.children, List.mem_cons, List.not_mem_nil, or_false] <;> tauto

theorem rename (r : Renaming) (table : rest.Premises side f parents) :
    (rest.rename r).Premises side (f.rename r) (parents.map (Sequent.rename r)) := by
  cases table <;> simp only [List.map_cons, List.map_nil, rename_push] <;> constructor

end Premises

/-- The branches of a sequent. The supply changes only where a name is issued. -/
inductive Decomposition (s : Sequent) (supply : NameSupply) : Branch → NameSupply → Prop where
  | propositional (principal : s.Principal side f rest) (shape : f.kind = .op operator)
      (table : rest.Premises side f parents) :
      Decomposition s supply ⟨⟨operator, side⟩, f, [⟨none, parents⟩]⟩ supply
  | eigenvariable (principal : s.Principal side (.quant q var body) rest)
      (rule : Rule.isEigenvariable ⟨.quant q, side⟩ = true)
      (issued : supply.fresh (rest.candidateNames body) = (name, later)) :
      Decomposition s supply
        ⟨⟨.quant q, side⟩, .quant q var body, [rest.instanceLeaf side var body name]⟩ later
  | candidates (principal : s.Principal side (.quant q var body) rest)
      (rule : Rule.isReusable ⟨.quant q, side⟩ = true) (some : rest.candidateNames body ≠ []) :
      Decomposition s supply
        ⟨⟨.quant q, side⟩, .quant q var body,
          (rest.candidateNames body).map (rest.instanceLeaf side var body)⟩ supply
  | unnamed (principal : s.Principal side (.quant q var body) rest)
      (rule : Rule.isReusable ⟨.quant q, side⟩ = true) (none : rest.candidateNames body = [])
      (issued : supply.fresh [] = (name, later)) :
      Decomposition s supply
        ⟨⟨.quant q, side⟩, .quant q var body, [rest.instanceLeaf side var body name]⟩ later

theorem Decomposition.wellBound {s : Sequent} {supply later : NameSupply} {branch : Branch}
    (decomposed : s.Decomposition supply branch later) (bound : s.WellBound) :
    ∀ leaf ∈ branch.leaves, ∀ parent ∈ leaf.parents, parent.WellBound := by
  cases decomposed with
  | propositional principal _ table =>
    obtain ⟨restBound, formulaBound⟩ := principal.wellBound bound
    simpa using table.wellBound restBound formulaBound
  | eigenvariable principal | candidates principal | unnamed principal =>
    obtain ⟨_, restBound, bodyBound⟩ := principal.wellBound_quant bound
    simp [instanceLeaf, restBound, bodyBound]

theorem Decomposition.not_atomic {s : Sequent} {supply later : NameSupply} {branch : Branch}
    (decomposed : s.Decomposition supply branch later) : s.isAtomic = false := by
  cases decomposed with
  | propositional principal | eigenvariable principal | candidates principal | unnamed principal =>
    exact principal.not_atomic

/-- The members of a parent are members, parts of members, or instances of quantified members. -/
inductive Derived (s : Sequent) (witness : Option Name) : Formula → Prop where
  | member (among : f ∈ s.formulas) : Derived s witness f
  | part (among : f ∈ s.formulas) (child : g ∈ f.children) : Derived s witness g
  | applied {q : Quantifier} {var : Text} {body : Formula} {name : Name}
      (among : .quant q var body ∈ s.formulas) (named : witness = some name) :
      Derived s witness (body.instantiate var name)

theorem Decomposition.derived {s : Sequent} {supply later : NameSupply} {branch : Branch}
    (decomposed : s.Decomposition supply branch later) {leaf : Leaf} (leafed : leaf ∈ branch.leaves)
    {parent : Sequent} (member : parent ∈ leaf.parents) {f : Formula}
    (inside : f ∈ parent.formulas) : s.Derived leaf.witness f := by
  have instances {q : Quantifier} {side : Side} {var : Text} {body : Formula} {rest : Sequent}
      {name : Name} (principal : s.Principal side (.quant q var body) rest)
      (same : leaf = rest.instanceLeaf side var body name) : s.Derived leaf.witness f := by
    rw [same] at member ⊢
    obtain rfl := List.mem_singleton.mp member
    rcases mem_formulas_push.mp inside with rfl | old
    · exact .applied ((principal.mem_formulas _).mpr (.inl rfl)) rfl
    · exact .member ((principal.mem_formulas f).mpr (.inr old))
  cases decomposed with
  | propositional principal _ table =>
    obtain rfl := List.mem_singleton.mp leafed
    rcases table.mem_formulas member inside with old | child
    · exact .member ((principal.mem_formulas f).mpr (.inr old))
    · exact .part ((principal.mem_formulas _).mpr (.inl rfl)) child
  | eigenvariable principal | unnamed principal =>
    exact instances principal (List.mem_singleton.mp leafed)
  | candidates principal =>
    obtain ⟨name, _, same⟩ := List.mem_map.mp leafed
    exact instances principal same.symm

theorem Decomposition.supply_eq {s : Sequent} {supply later : NameSupply} {branch : Branch}
    (decomposed : s.Decomposition supply branch later) :
    later = supply ∨ ∃ avoid name, supply.fresh avoid = (name, later) := by
  cases decomposed with
  | propositional | candidates => exact .inl rfl
  | eigenvariable _ _ issued | unnamed _ _ _ issued => exact .inr ⟨_, _, issued⟩

/-- A witness occurs in the sequent, or it was issued for the step. -/
theorem Decomposition.witness {s : Sequent} {supply later : NameSupply} {branch : Branch}
    (decomposed : s.Decomposition supply branch later) {leaf : Leaf} (leafed : leaf ∈ branch.leaves)
    {name : Name} (named : leaf.witness = some name) :
    name ∈ s.names ∨ ∃ avoid, supply.fresh avoid = (name, later) := by
  cases decomposed with
  | propositional =>
    obtain rfl := List.mem_singleton.mp leafed
    cases named
  | eigenvariable principal rule issued | unnamed principal rule none issued =>
    obtain rfl := List.mem_singleton.mp leafed
    cases named
    exact .inr ⟨_, issued⟩
  | candidates principal =>
    obtain ⟨other, candidate, rfl⟩ := List.mem_map.mp leafed
    cases named
    simp only [candidateNames, List.mem_eraseDups, List.mem_append, mem_names] at candidate
    rcases candidate with inside | ⟨g, among, inside⟩
    · exact .inl (mem_names.mpr ⟨_, (principal.mem_formulas _).mpr (.inl rfl), inside⟩)
    · exact .inl (mem_names.mpr ⟨g, (principal.mem_formulas g).mpr (.inr among), inside⟩)

theorem isReusable_quant (q : Quantifier) (side : Side) :
    Rule.isReusable ⟨.quant q, side⟩ = !Rule.isEigenvariable ⟨.quant q, side⟩ := by
  cases q <;> cases side <;> rfl

theorem decomposition_of_decompose {s : Sequent} {supply later : NameSupply} {branch : Branch}
    (found : s.decompose supply = some (branch, later)) : Decomposition s supply branch later := by
  obtain ⟨focus, focused, found⟩ := Option.bind_eq_some_iff.mp found
  have principal := principal_of_focus? focused
  obtain ⟨side, index, f, rest⟩ := focus
  cases f with
  | atom text => simp [Focus.branch] at found
  | neg body =>
    cases found
    exact .propositional principal rfl (premises_neg_iff.mpr rfl)
  | bin c left right =>
    cases found
    exact .propositional principal rfl (premises_bin_iff.mpr rfl)
  | quant q var body =>
    simp only [Focus.branch, quantifierLeaves, Option.some.injEq, Prod.mk.injEq] at found
    obtain ⟨rfl, rfl⟩ := found
    by_cases rule : Rule.isEigenvariable ⟨.quant q, side⟩ = true
    · simp only [rule, if_true]
      exact .eigenvariable principal rule rfl
    · have reusable : Rule.isReusable ⟨.quant q, side⟩ = true := by
        rw [isReusable_quant]
        simpa using rule
      by_cases none : rest.candidateNames body = []
      · simp only [rule, none, if_true]
        exact .unnamed principal reusable none rfl
      · simp only [rule, none, if_false]
        exact .candidates principal reusable none

theorem Decomposition.decompose_eq {s : Sequent} {supply later : NameSupply} {branch : Branch}
    (decomposed : s.Decomposition supply branch later) :
    s.decompose supply = some (branch, later) := by
  cases decomposed with
  | @propositional side f rest operator parents principal shape table =>
    obtain ⟨index, focused⟩ := focus?_of_principal principal
    rw [decompose, focused]
    cases f with
    | atom text => cases principal.compound
    | neg body =>
      cases shape
      simp [Focus.branch, premises_neg_iff.mp table]
    | bin c left right =>
      cases shape
      simp [Focus.branch, premises_bin_iff.mp table]
    | quant q var body => exact absurd table premises_quant
  | eigenvariable principal rule issued =>
    obtain ⟨index, focused⟩ := focus?_of_principal principal
    simp [decompose, focused, Focus.branch, quantifierLeaves, rule, issued]
  | candidates principal rule some =>
    obtain ⟨index, focused⟩ := focus?_of_principal principal
    rw [isReusable_quant, Bool.not_eq_true'] at rule
    simp [decompose, focused, Focus.branch, quantifierLeaves, rule, some]
  | unnamed principal rule none issued =>
    obtain ⟨index, focused⟩ := focus?_of_principal principal
    rw [isReusable_quant, Bool.not_eq_true'] at rule
    simp [decompose, focused, Focus.branch, quantifierLeaves, rule, none, issued]

theorem decompose_eq_none_iff {s : Sequent} {supply : NameSupply} :
    s.decompose supply = none ↔ s.isAtomic = true := by
  rw [← focus?_eq_none_iff]
  constructor
  · intro absent
    cases focused : s.focus? with
    | none => rfl
    | some focus =>
      have principal := principal_of_focus? focused
      obtain ⟨side, index, f, rest⟩ := focus
      rw [decompose, focused] at absent
      cases f with
      | atom text => cases principal.compound
      | neg body | bin c left right | quant q var body => simp [Focus.branch] at absent
  · intro absent
    simp [decompose, absent]

end Sequent
end Turnstile
