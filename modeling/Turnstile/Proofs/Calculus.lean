import Turnstile.Proofs.FreshName
import Turnstile.Proofs.Truth

/-! The calculus that the search explores, without the order of the search:
derivability within bounds, and its soundness. Nothing here mentions a supply, so a
derivation may take any name that is fresh. -/
namespace Turnstile

/-- The first elements of a list, or all of them if the limit is zero. -/
def firstOf {α : Type} (limit : Nat) (l : List α) : List α := if limit = 0 then l else l.take limit

/-- A sequent with a derivation in which no branch applies more than `depth` rules and
no reusable rule looks at more than `limit` names of the sequent. -/
inductive Derivable (limit : Nat) : Nat → Sequent → Prop where
  | initial (atomic : s.isAtomic = true) (common : s.isInitial = true) : Derivable limit depth s
  | propositional (principal : s.Principal side f rest) (table : rest.Premises side f parents)
      (above : ∀ parent ∈ parents, Derivable limit depth parent) : Derivable limit (depth + 1) s
  | eigenvariable (principal : s.Principal side (.quant q var body) rest)
      (rule : Rule.isEigenvariable ⟨.quant q, side⟩ = true) (named : Text.isName name = true)
      (fresh : name ∉ rest.names) (absent : name ∉ body.names)
      (above : Derivable limit depth (rest.push side (body.instantiate var name))) :
      Derivable limit (depth + 1) s
  | candidate (principal : s.Principal side (.quant q var body) rest)
      (rule : Rule.isReusable ⟨.quant q, side⟩ = true)
      (chosen : name ∈ firstOf limit (rest.candidateNames body))
      (above : Derivable limit depth (rest.push side (body.instantiate var name))) :
      Derivable limit (depth + 1) s
  | unnamed (principal : s.Principal side (.quant q var body) rest)
      (rule : Rule.isReusable ⟨.quant q, side⟩ = true) (none : rest.candidateNames body = [])
      (named : Text.isName name = true)
      (above : Derivable limit depth (rest.push side (body.instantiate var name))) :
      Derivable limit (depth + 1) s

section FirstOf

variable {α β : Type} {limit : Nat}

theorem mem_of_mem_firstOf {l : List α} {a : α} (member : a ∈ firstOf limit l) : a ∈ l := by
  unfold firstOf at member
  split at member
  · exact member
  · exact List.mem_of_mem_take member

theorem firstOf_map (f : α → β) (l : List α) :
    firstOf limit (l.map f) = (firstOf limit l).map f := by
  unfold firstOf
  split
  · rfl
  · exact List.map_take.symm

@[simp] theorem firstOf_singleton (a : α) : firstOf limit [a] = [a] := by
  unfold firstOf
  split
  · rfl
  · exact List.take_of_length_le (by simp; omega)

/-- A limit of zero is the widest. -/
theorem mem_firstOf_of_le {wider : Nat} (order : wider = 0 ∨ limit ≠ 0 ∧ limit ≤ wider)
    {l : List α} {a : α} (member : a ∈ firstOf limit l) : a ∈ firstOf wider l := by
  rcases order with rfl | ⟨bounded, less⟩
  · exact mem_of_mem_firstOf member
  · have wide : wider ≠ 0 := by omega
    rw [firstOf, if_neg bounded] at member
    rw [firstOf, if_neg wide]
    exact List.take_subset_take_left l less member

end FirstOf

theorem Sequent.rename_push_instantiate (r : Renaming) (rest : Sequent) (side : Side)
    (body : Formula) {var : Text} {name : Name} (single : Text.isVariable var = true)
    (named : Text.isName name = true) :
    (rest.push side (body.instantiate var name)).rename r =
      (rest.rename r).push side ((body.rename r).instantiate var (r name)) := by
  rw [rename_push, Formula.rename_instantiate r single named]

theorem Sequent.rename_instance {r : Renaming} {rest : Sequent} {side : Side} {var : Text}
    {body : Formula} {name : Name} (single : Text.isVariable var = true)
    (named : Text.isName name = true) (restFixed : ∀ other ∈ rest.names, r other = other)
    (bodyFixed : ∀ other ∈ body.names, r other = other) :
    (rest.push side (body.instantiate var name)).rename r =
      rest.push side (body.instantiate var (r name)) := by
  rw [rename_push_instantiate r rest side body single named, rename_of_fixed r restFixed,
    Formula.rename_of_fixed r bodyFixed]

/-- An eigenvariable stands for whatever name refutes the quantified formula. -/
theorem Sequent.refuted_fresh {v : Valuation} {rest : Sequent} {side : Side} {var : Text}
    {body : Formula} {name target : Name} (restBound : rest.WellBound) (bodyBound : body.WellBound)
    (single : Text.isVariable var = true) (named : Text.isName name = true)
    (aim : Text.isName target = true) (fresh : name ∉ rest.names) (absent : name ∉ body.names)
    (refuted : (rest.push side (body.instantiate var target)).Refuted v) :
    ∃ w, (rest.push side (body.instantiate var name)).Refuted w := by
  let r := Renaming.redirect (rest.names ++ body.names) named aim
  have restFixed : ∀ other ∈ rest.names, r other = other := by
    intro other member
    apply Renaming.redirect_of_mem named aim (List.mem_append_left _ member)
    rintro rfl
    exact fresh member
  have bodyFixed : ∀ other ∈ body.names, r other = other := by
    intro other member
    apply Renaming.redirect_of_mem named aim (List.mem_append_right _ member)
    rintro rfl
    exact absent member
  refine ⟨v ∘ Text.rename r, ?_⟩
  rw [refuted_rename (Renaming.redirect_surjective named aim) v
      (wellBound_push_instantiate restBound bodyBound),
    rename_instance single named restFixed bodyFixed]
  simpa only [r, Renaming.redirect_name] using refuted

/-- What refutes a formula with an eigenvariable rule shows that its instance for a fresh name is
refuted too, though perhaps in another way. -/
theorem Sequent.Principal.exists_refuted_fresh {v : Valuation} {s rest : Sequent} {side : Side}
    {q : Quantifier} {var : Text} {body : Formula} {name : Name}
    (principal : s.Principal side (.quant q var body) rest) (bound : s.WellBound)
    (rule : Rule.isEigenvariable ⟨.quant q, side⟩ = true) (named : Text.isName name = true)
    (fresh : name ∉ rest.names) (absent : name ∉ body.names) (refuted : s.Refuted v) :
    ∃ w, (rest.push side (body.instantiate var name)).Refuted w := by
  obtain ⟨single, restBound, bodyBound⟩ := principal.wellBound_quant bound
  obtain ⟨restRefuted, against⟩ := principal.refutedBy_iff.mp refuted
  rw [Formula.Holds, Quantifier.against_quantify_of_eigenvariable rule] at against
  obtain ⟨⟨target, aim⟩, against⟩ := against
  exact refuted_fresh restBound bodyBound single named aim fresh absent
    (refutedBy_push.mpr ⟨restRefuted, against⟩)

namespace Derivable

variable {limit depth : Nat} {s rest : Sequent} {side : Side}

section Inversion

theorem isInitial (derivable : Derivable limit depth s) (atomic : s.isAtomic = true) :
    s.isInitial = true := by
  cases derivable with
  | initial _ common => exact common
  | propositional principal | eigenvariable principal | candidate principal | unnamed principal =>
    simp [principal.not_atomic] at atomic

theorem isAtomic (derivable : Derivable limit 0 s) : s.isAtomic = true := by
  cases derivable with
  | initial atomic => exact atomic

variable {q : Quantifier} {var : Text} {body : Formula}

theorem parents {f : Formula} {parents : List Sequent}
    (derivable : Derivable limit (depth + 1) s) (principal : s.Principal side f rest)
    (table : rest.Premises side f parents) :
    ∀ parent ∈ parents, Derivable limit depth parent := by
  cases derivable with
  | initial atomic => simp [principal.not_atomic] at atomic
  | propositional other row above =>
    obtain ⟨rfl, rfl, rfl⟩ := principal.unique other
    rwa [table.unique row]
  | eigenvariable other | candidate other | unnamed other =>
    obtain ⟨rfl, rfl, rfl⟩ := principal.unique other
    exact absurd table Sequent.premises_quant

theorem eigenvariable_instance (derivable : Derivable limit (depth + 1) s)
    (principal : s.Principal side (.quant q var body) rest)
    (rule : Rule.isEigenvariable ⟨.quant q, side⟩ = true) :
    ∃ name, Text.isName name = true ∧ name ∉ rest.names ∧ name ∉ body.names ∧
      Derivable limit depth (rest.push side (body.instantiate var name)) := by
  cases derivable with
  | initial atomic => simp [principal.not_atomic] at atomic
  | propositional other table =>
    obtain ⟨rfl, rfl, rfl⟩ := principal.unique other
    exact absurd table Sequent.premises_quant
  | eigenvariable other _ named fresh absent above =>
    obtain ⟨rfl, same, rfl⟩ := principal.unique other
    cases same
    exact ⟨_, named, fresh, absent, above⟩
  | candidate other reusable | unnamed other reusable =>
    obtain ⟨rfl, same, rfl⟩ := principal.unique other
    cases same
    simp [Sequent.isReusable_quant, rule] at reusable

theorem reusable_instance (derivable : Derivable limit (depth + 1) s)
    (principal : s.Principal side (.quant q var body) rest)
    (rule : Rule.isReusable ⟨.quant q, side⟩ = true) :
    ∃ name, (name ∈ firstOf limit (rest.candidateNames body) ∨
        rest.candidateNames body = [] ∧ Text.isName name = true) ∧
      Derivable limit depth (rest.push side (body.instantiate var name)) := by
  cases derivable with
  | initial atomic => simp [principal.not_atomic] at atomic
  | propositional other table =>
    obtain ⟨rfl, rfl, rfl⟩ := principal.unique other
    exact absurd table Sequent.premises_quant
  | eigenvariable other eigenvariable =>
    obtain ⟨rfl, same, rfl⟩ := principal.unique other
    cases same
    simp [Sequent.isReusable_quant, eigenvariable] at rule
  | candidate other _ chosen above =>
    obtain ⟨rfl, same, rfl⟩ := principal.unique other
    cases same
    exact ⟨_, .inl chosen, above⟩
  | unnamed other _ none named above =>
    obtain ⟨rfl, same, rfl⟩ := principal.unique other
    cases same
    exact ⟨_, .inr ⟨none, named⟩, above⟩

end Inversion

/-- Wider bounds keep every derivation. -/
theorem mono {wider deeper : Nat} (names : wider = 0 ∨ limit ≠ 0 ∧ limit ≤ wider)
    (rules : depth ≤ deeper) (derivable : Derivable limit depth s) : Derivable wider deeper s := by
  induction derivable generalizing deeper with
  | initial atomic common => exact .initial atomic common
  | propositional principal table _ ih =>
    obtain ⟨deeper, rfl⟩ := Nat.exists_eq_add_of_lt rules
    exact .propositional principal table fun parent inside => ih parent inside (by omega)
  | eigenvariable principal rule named fresh absent _ ih =>
    obtain ⟨deeper, rfl⟩ := Nat.exists_eq_add_of_lt rules
    exact .eigenvariable principal rule named fresh absent (ih (by omega))
  | candidate principal rule chosen _ ih =>
    obtain ⟨deeper, rfl⟩ := Nat.exists_eq_add_of_lt rules
    exact .candidate principal rule (mem_firstOf_of_le names chosen) (ih (by omega))
  | unnamed principal rule none named _ ih =>
    obtain ⟨deeper, rfl⟩ := Nat.exists_eq_add_of_lt rules
    exact .unnamed principal rule none named (ih (by omega))

theorem rename {r : Renaming} (injective : r.Injective) (bound : s.WellBound)
    (derivable : Derivable limit depth s) : Derivable limit depth (s.rename r) := by
  induction derivable with
  | initial atomic common =>
    exact .initial (by rwa [Sequent.isAtomic_rename]) (Sequent.isInitial_rename r common)
  | propositional principal table _ ih =>
    obtain ⟨restBound, formulaBound⟩ := principal.wellBound bound
    refine .propositional (principal.rename r) (table.rename r) ?_
    intro image member
    obtain ⟨parent, inside, rfl⟩ := List.mem_map.mp member
    exact ih parent inside (table.wellBound restBound formulaBound parent inside)
  | eigenvariable principal rule named fresh absent _ ih =>
    obtain ⟨single, restBound, bodyBound⟩ := principal.wellBound_quant bound
    have above := ih (Sequent.wellBound_push_instantiate restBound bodyBound)
    rw [Sequent.rename_push_instantiate r _ _ _ single named] at above
    refine .eigenvariable (principal.rename_quant r) rule (r.isName named) ?_ ?_ above
    · intro member
      rw [Sequent.names_rename injective] at member
      obtain ⟨other, inside, same⟩ := List.mem_map.mp member
      exact fresh (injective (Sequent.isName_of_mem_names inside) named same ▸ inside)
    · intro member
      rw [Formula.names_rename] at member
      obtain ⟨other, inside, same⟩ := List.mem_map.mp member
      exact absent (injective (Formula.isName_of_mem_names inside) named same ▸ inside)
  | candidate principal rule chosen _ ih =>
    obtain ⟨single, restBound, bodyBound⟩ := principal.wellBound_quant bound
    have named := Sequent.isName_of_mem_candidateNames (mem_of_mem_firstOf chosen)
    have above := ih (Sequent.wellBound_push_instantiate restBound bodyBound)
    rw [Sequent.rename_push_instantiate r _ _ _ single named] at above
    refine .candidate (principal.rename_quant r) rule ?_ above
    rw [Sequent.candidateNames_rename injective, firstOf_map]
    exact List.mem_map_of_mem chosen
  | unnamed principal rule none named _ ih =>
    obtain ⟨single, restBound, bodyBound⟩ := principal.wellBound_quant bound
    have above := ih (Sequent.wellBound_push_instantiate restBound bodyBound)
    rw [Sequent.rename_push_instantiate r _ _ _ single named] at above
    refine .unnamed (principal.rename_quant r) rule ?_ (r.isName named) above
    rw [Sequent.candidateNames_rename injective, none, List.map_nil]

/-- Which fresh name is taken does not matter. -/
theorem change_name {var : Text} {body : Formula} {name other : Name}
    (restBound : rest.WellBound) (bodyBound : body.WellBound)
    (single : Text.isVariable var = true) (named : Text.isName name = true)
    (otherNamed : Text.isName other = true) (fresh : name ∉ rest.names) (absent : name ∉ body.names)
    (otherFresh : other ∉ rest.names) (otherAbsent : other ∉ body.names)
    (derivable : Derivable limit depth (rest.push side (body.instantiate var name))) :
    Derivable limit depth (rest.push side (body.instantiate var other)) := by
  let r := Renaming.swap named otherNamed
  have restFixed : ∀ third ∈ rest.names, r third = third := by
    intro third member
    apply Equiv.swap_apply_of_ne_of_ne
    · rintro rfl
      exact fresh member
    · rintro rfl
      exact otherFresh member
  have bodyFixed : ∀ third ∈ body.names, r third = third := by
    intro third member
    apply Equiv.swap_apply_of_ne_of_ne
    · rintro rfl
      exact absent member
    · rintro rfl
      exact otherAbsent member
  have moved : r name = other := Equiv.swap_apply_left name other
  have renamed := derivable.rename (Renaming.swap_injective named otherNamed)
    (Sequent.wellBound_push_instantiate restBound bodyBound)
  rwa [Sequent.rename_instance single named restFixed bodyFixed, moved] at renamed

/-- The calculus derives valid sequents only. -/
theorem valid (bound : s.WellBound) (derivable : Derivable limit depth s) : s.Valid := by
  rw [Sequent.valid_iff]
  induction derivable with
  | initial atomic common =>
    rintro ⟨v, refuted⟩
    exact Sequent.not_refutedBy_of_isInitial common refuted
  | propositional principal table _ ih =>
    rintro ⟨v, refuted⟩
    obtain ⟨restBound, formulaBound⟩ := principal.wellBound bound
    obtain ⟨parent, inside, fails⟩ :=
      (table.refutedBy_iff (Formula.classical_holds v)).mp (principal.refutedBy_iff.mp refuted)
    exact ih parent inside (table.wellBound restBound formulaBound parent inside) ⟨v, fails⟩
  | eigenvariable principal rule named fresh absent _ ih =>
    rintro ⟨v, refuted⟩
    obtain ⟨_, restBound, bodyBound⟩ := principal.wellBound_quant bound
    exact ih (Sequent.wellBound_push_instantiate restBound bodyBound)
      (principal.exists_refuted_fresh bound rule named fresh absent refuted)
  | candidate principal rule chosen _ ih =>
    rintro ⟨v, refuted⟩
    obtain ⟨_, restBound, bodyBound⟩ := principal.wellBound_quant bound
    have named := Sequent.isName_of_mem_candidateNames (mem_of_mem_firstOf chosen)
    exact ih (Sequent.wellBound_push_instantiate restBound bodyBound)
      ⟨v, principal.refuted_instance rule named refuted⟩
  | unnamed principal rule none named _ ih =>
    rintro ⟨v, refuted⟩
    obtain ⟨_, restBound, bodyBound⟩ := principal.wellBound_quant bound
    exact ih (Sequent.wellBound_push_instantiate restBound bodyBound)
      ⟨v, principal.refuted_instance rule named refuted⟩

end Derivable
end Turnstile
