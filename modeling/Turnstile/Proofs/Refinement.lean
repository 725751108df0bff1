import Turnstile.Proofs.Search

/-! The search finds a proof exactly where the calculus has a derivation within the
same bounds. A derivation may have taken other fresh names than the supply issues,
so the two meet up to a renaming. -/
namespace Turnstile

namespace Sequent.Decomposition

variable {s : Sequent} {supply later : NameSupply} {branch : Branch} {limit depth : Nat}

theorem derivable (decomposed : s.Decomposition supply branch later) {leaf : Leaf}
    (member : leaf ∈ firstOf limit branch.leaves)
    (above : ∀ parent ∈ leaf.parents, Derivable limit depth parent) :
    Derivable limit (depth + 1) s := by
  cases decomposed with
  | propositional principal _ table =>
    obtain rfl : leaf = _ := by simpa using member
    exact .propositional principal table above
  | eigenvariable principal rule issued =>
    obtain rfl : leaf = _ := by simpa using member
    obtain ⟨named, _, outside⟩ := NameSupply.fresh_spec issued
    obtain ⟨fresh, absent⟩ := not_mem_candidateNames.mp outside
    exact .eigenvariable principal rule named fresh absent (above _ (by simp [instanceLeaf]))
  | candidates principal rule some =>
    rw [firstOf_map] at member
    obtain ⟨name, chosen, rfl⟩ := List.mem_map.mp member
    exact .candidate principal rule chosen (above _ (by simp [instanceLeaf]))
  | unnamed principal rule none issued =>
    obtain rfl : leaf = _ := by simpa using member
    exact .unnamed principal rule none (NameSupply.fresh_spec issued).1
      (above _ (by simp [instanceLeaf]))

/-- A derivation shows which of the leaves succeeds. -/
theorem exists_leaf (decomposed : s.Decomposition supply branch later) (bound : s.WellBound)
    (derivable : Derivable limit (depth + 1) s) :
    ∃ leaf ∈ firstOf limit branch.leaves,
      ∀ parent ∈ leaf.parents, Derivable limit depth parent := by
  cases decomposed with
  | propositional principal _ table =>
    rw [firstOf_singleton]
    exact ⟨_, List.mem_singleton_self _, derivable.parents principal table⟩
  | eigenvariable principal rule issued =>
    obtain ⟨single, restBound, bodyBound⟩ := principal.wellBound_quant bound
    obtain ⟨issuedNamed, _, outside⟩ := NameSupply.fresh_spec issued
    obtain ⟨issuedFresh, issuedAbsent⟩ := not_mem_candidateNames.mp outside
    obtain ⟨name, named, fresh, absent, above⟩ := derivable.eigenvariable_instance principal rule
    rw [firstOf_singleton]
    refine ⟨_, List.mem_singleton_self _, ?_⟩
    simp only [instanceLeaf, List.mem_singleton, forall_eq]
    exact above.change_name restBound bodyBound single named issuedNamed fresh absent issuedFresh
      issuedAbsent
  | candidates principal rule some =>
    obtain ⟨name, chosen | ⟨none, _⟩, above⟩ := derivable.reusable_instance principal rule
    · rw [firstOf_map]
      refine ⟨_, List.mem_map_of_mem chosen, ?_⟩
      simpa [instanceLeaf] using above
    · exact absurd none some
  | unnamed principal rule none issued =>
    obtain ⟨single, restBound, bodyBound⟩ := principal.wellBound_quant bound
    have unused (name : Name) := not_mem_candidateNames.mp (none ▸ List.not_mem_nil (a := name))
    obtain ⟨name, chosen | ⟨_, named⟩, above⟩ := derivable.reusable_instance principal rule
    · rw [none] at chosen
      cases mem_of_mem_firstOf chosen
    · rw [firstOf_singleton]
      refine ⟨_, List.mem_singleton_self _, ?_⟩
      simp only [instanceLeaf, List.mem_singleton, forall_eq]
      exact above.change_name restBound bodyBound single named (NameSupply.fresh_spec issued).1
        (unused _).1 (unused _).2 (unused _).1 (unused _).2

end Sequent.Decomposition

namespace Search

theorem derivable_of_visit {setting : Setting} {left : Nat} {s : Sequent} {state : State}
    (success : (visit setting left s state).1 = true) :
    Derivable setting.limits.names left s := by
  induction left using Nat.strong_induction_on generalizing s state with
  | _ left ih =>
    obtain ⟨last, run⟩ : ∃ last, visit setting left s state = (true, last) :=
      ⟨_, Prod.ext success rfl⟩
    cases visited run with
    | closed atomic common => exact .initial atomic common
    | branched decomposed searched =>
      obtain ⟨leaf, member, each⟩ := (anyLeaf_spec (List.Subset.refl _) searched).2.1 rfl
      apply decomposed.derivable member
      intro parent inside
      obtain ⟨between, _, answered⟩ := each parent inside
      exact ih _ (Nat.lt_succ_self _) answered

theorem visit_of_derivable {setting : Setting} {left : Nat} {s : Sequent} {state : State}
    (untimed : setting.Untimed) (running : state.timedOut = false) (bound : s.WellBound)
    (derivable : Derivable setting.limits.names left s) :
    (visit setting left s state).1 = true := by
  induction left using Nat.strong_induction_on generalizing s state with
  | _ left ih =>
    rw [← Bool.not_eq_false]
    intro failure
    obtain ⟨last, run⟩ : ∃ last, visit setting left s state = (false, last) :=
      ⟨_, Prod.ext failure rfl⟩
    cases visited run with
    | expired late => simp [untimed.isLate_eq_false running] at late
    | unclosed atomic unshared => simp [derivable.isInitial atomic] at unshared
    | cut compound => simp [derivable.isAtomic] at compound
    | branched decomposed searched =>
      -- Had the search failed, then also at the leaf that the derivation takes.
      obtain ⟨leaf, member, above⟩ := decomposed.exists_leaf bound derivable
      obtain ⟨parent, inside, between, path, failed⟩ :=
        (anyLeaf_spec (List.Subset.refl _) searched).2.2 rfl leaf member
      have still : between.timedOut = false :=
        (preserves_running untimed).passes path (by simp) (by simpa using running)
      have parentBound := decomposed.wellBound bound leaf (mem_of_mem_firstOf member) parent inside
      have succeeded := ih _ (Nat.lt_succ_self _) still parentBound (above parent inside)
      rw [failed] at succeeded
      cases succeeded

end Search

namespace Session

variable (session : Session) (clock : Clock) {goal : Sequent}

/-- The search proves exactly what the calculus derives within the same bounds. -/
theorem proved_iff_derivable (bound : goal.WellBound) (untimed : session.limits.timeout = 0) :
    (session.prove clock goal).1.verdict = .proved ↔
      Derivable session.limits.names session.limits.depth goal := by
  constructor
  · intro proved
    exact Search.derivable_of_visit (Search.verdict_eq_proved.mp proved)
  · intro derivable
    apply Search.verdict_eq_proved.mpr
    exact Search.visit_of_derivable (session.untimed_setting clock untimed) rfl bound derivable

/-- The first name does not help, the second one does. -/
theorem derivable_second_name :
    let goal : Sequent :=
      ⟨[.atom "<bo> waits".toList, .atom "<ann> runs".toList,
        .quant .all ['x'] (.bin .cond (.atom "<x> runs".toList) (.atom "<x> tires".toList))],
       [.quant .ex ['y'] (.bin .conj (.atom "<y> runs".toList) (.atom "<y> tires".toList))]⟩
    Derivable 2 4 goal ∧ ¬Derivable 1 4 goal :=
  ⟨(proved_iff_derivable { limits := { depth := 4, names := 2 } } (fun _ => 0) (by decide) rfl).mp
      (by decide +kernel),
    (proved_iff_derivable { limits := { depth := 4, names := 1 } } (fun _ => 0)
      (by decide) rfl).not.mp (by decide +kernel)⟩

/-- With wider limits the search tries other names before the ones that led to a proof, and the
supply issues others, but what was proved stays proved. No bound on the names is the widest. -/
theorem proved_of_wider (session wider : Session) (clock later : Clock) {goal : Sequent}
    (bound : goal.WellBound) (untimed : wider.limits.timeout = 0)
    (depth : session.limits.depth ≤ wider.limits.depth)
    (names : wider.limits.names = 0 ∨
      session.limits.names ≠ 0 ∧ session.limits.names ≤ wider.limits.names)
    (proved : (session.prove clock goal).1.verdict = .proved) :
    (wider.prove later goal).1.verdict = .proved := by
  have derivable := Search.derivable_of_visit (Search.verdict_eq_proved.mp proved)
  apply Search.verdict_eq_proved.mpr
  exact Search.visit_of_derivable (wider.untimed_setting later untimed) rfl bound
    (derivable.mono names depth)

/-- The narrow search goes on to `ann` as the one who sees. The wider one stays with `bo`, for
whom it reaches a third name. -/
theorem proved_of_wider_other_name :
    let goal : Sequent :=
      ⟨[.atom "<bo> waits".toList, .atom "<ann> sees <bo>".toList, .atom "<bo> sees <cy>".toList],
       [.quant .ex ['y'] (.quant .ex ['z'] (.atom "<y> sees <z>".toList))]⟩
    (prove { limits := { depth := 2, names := 2 } } (fun _ => 0) goal).1.verdict = .proved ∧
      (prove { limits := { depth := 9, names := 0 } } (fun _ => 0) goal).1.verdict = .proved := by
  intro goal
  have proved : (prove { limits := { depth := 2, names := 2 } } (fun _ => 0) goal).1.verdict =
      .proved := by decide +kernel
  exact ⟨proved, proved_of_wider _ _ _ _ (by decide) rfl (by decide) (.inl rfl) proved⟩

end Session
end Turnstile
