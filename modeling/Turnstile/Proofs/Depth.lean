import Turnstile.Proofs.Decision

/-! How deep a search goes. Every step takes an operator of its sequent away, also where
the complexity of the sequent grows, so the operators of a goal bound its depth. A limit
on the depth that is not below them cuts nothing, and all such limits give one answer. -/
namespace Turnstile

namespace Search

/-- A sequent is cut by the limit on the depth nowhere in the trace. -/
def State.Uncut (state : State) : Prop :=
  ∀ entry ∈ state.trace, ∀ s, entry.event ≠ .cut s

theorem State.Uncut.record {state : State} (kept : state.Uncut) (setting : Setting) (depth : Nat)
    (event : Event) (other : ∀ s, event ≠ .cut s) : (state.record setting depth event).Uncut := by
  unfold State.record
  split
  · intro entry member
    rcases Array.mem_push.mp member with old | rfl
    · exact kept entry old
    · exact other
  · exact kept

/-- The operators of a sequent and the rules applied before it are together no more than
the operators of the goal. -/
def Within (setting : Setting) (goal : Sequent) (left : Nat) (s : Sequent) : Prop :=
  s.size + (setting.limits.depth - left) ≤ goal.size

theorem Within.parent {setting : Setting} {goal s : Sequent} {left : Nat}
    {supply later : NameSupply} {branch : Branch} (within : Within setting goal (left + 1) s)
    (decomposed : s.Decomposition supply branch later) {leaf : Leaf}
    (member : leaf ∈ branch.leaves) {parent : Sequent} (inside : parent ∈ leaf.parents) :
    Within setting goal left parent := by
  have smaller := (decomposed.reduces member inside).1
  unfold Within at *
  omega

theorem Within.maxDepth_enter {setting : Setting} {goal s : Sequent} {left : Nat} {state : State}
    (within : Within setting goal left s)
    (kept : state.statistics.maxDepth ≤ min setting.limits.depth goal.size) :
    (state.enter (setting.limits.depth - left)).statistics.maxDepth ≤
      min setting.limits.depth goal.size := by
  unfold Within at within
  simp only [State.enter, State.count]
  omega

theorem maintains_maxDepth (setting : Setting) (goal : Sequent) :
    Maintains setting (Within setting goal)
      fun state => state.statistics.maxDepth ≤ min setting.limits.depth goal.size where
  expire kept within _ := within.maxDepth_enter kept
  close kept within := by simpa [State.close, State.count] using within.maxDepth_enter kept
  leaveOpen kept within := by
    simpa [State.leaveOpen, State.count] using within.maxDepth_enter kept
  cut kept within _ := by simpa [State.cut, State.count] using within.maxDepth_enter kept
  branchOff kept within _ := by
    simp only [State.branchOff, State.choose]
    split <;> simpa [State.count] using within.maxDepth_enter kept
  tryLeaf kept := by
    unfold State.tryLeaf
    split <;> simpa using kept
  finish kept _ _ := by
    unfold State.finish
    split <;> exact kept
  parents within decomposed _ member _ inside := within.parent decomposed member inside

/-- With a rule application for every operator nothing is left to be cut. -/
theorem maintains_uncut (setting : Setting) {goal : Sequent}
    (deep : goal.size ≤ setting.limits.depth) :
    Maintains setting (Within setting goal) State.Uncut where
  expire kept _ _ := kept
  close kept _ := by
    refine State.Uncut.record ?_ setting _ (.closed _) (by simp)
    exact kept
  leaveOpen kept _ := by
    refine State.Uncut.record ?_ setting _ (.unclosed _) (by simp)
    exact kept
  cut _ within compound := by
    have operators := Sequent.size_pos compound
    unfold Within at within
    omega
  branchOff kept _ _ := by
    simp only [State.branchOff, State.choose]
    split
    all_goals
      refine State.Uncut.record ?_ setting _ (.step ..) (by simp)
      exact kept
  tryLeaf kept := by
    unfold State.tryLeaf
    split
    · exact kept.record setting _ (.witness _) (by simp)
    · exact kept
  finish kept _ _ := by
    unfold State.finish
    split <;> exact kept
  parents within decomposed _ member _ inside := within.parent decomposed member inside

def Setting.withDepth (setting : Setting) (depth : Nat) : Setting :=
  { setting with limits := { setting.limits with depth := depth } }

section Loops

variable {visit other : Sequent → State → Bool × State}

theorem allParents_congr {parents : List Sequent}
    (same : ∀ parent ∈ parents, ∀ state, visit parent state = other parent state)
    (state : State) : allParents visit parents state = allParents other parents state := by
  induction parents generalizing state with
  | nil => rfl
  | cons parent rest ih =>
    obtain ⟨first, others⟩ := List.forall_mem_cons.mp same
    simp only [allParents, first, ih others]

theorem anyLeaf_congr {leaves : List Leaf}
    (same : ∀ leaf ∈ leaves, ∀ parent ∈ leaf.parents, ∀ state,
      visit parent state = other parent state)
    (start : Leaf → State → State) (state : State) :
    anyLeaf visit start leaves state = anyLeaf other start leaves state := by
  induction leaves generalizing state with
  | nil => rfl
  | cons leaf rest ih =>
    obtain ⟨first, others⟩ := List.forall_mem_cons.mp same
    simp only [anyLeaf, allParents_congr first, ih others]

end Loops

/-- Two searches that stand at the same depth, each with a rule application for every
operator, go the same way. -/
theorem visit_withDepth {setting : Setting} {deeper left more : Nat} {s : Sequent} {state : State}
    (enough : s.size ≤ left) (enough' : s.size ≤ more)
    (level : deeper - more = setting.limits.depth - left)
    (below : left ≤ setting.limits.depth) (below' : more ≤ deeper) :
    visit (setting.withDepth deeper) more s state = visit setting left s state := by
  induction left using Nat.strong_induction_on generalizing more s state with
  | _ left ih =>
    obtain ⟨⟨success, later⟩, run⟩ : ∃ outcome, visit setting left s state = outcome := ⟨_, rfl⟩
    rw [run]
    apply Visited.visit_eq
    cases visited run with
    | expired late =>
      rw [← level]
      exact .expired late
    | closed atomic common early =>
      rw [← level]
      exact .closed atomic common early
    | unclosed atomic unshared early =>
      rw [← level]
      exact .unclosed atomic unshared early
    | cut compound => exact absurd enough (Nat.not_le.mpr (Sequent.size_pos compound))
    | @branched branch supply left _ last decomposed searched early =>
      -- There is an operator to take away, so the other search has a rule application left too.
      have operators := Sequent.size_pos decomposed.not_atomic
      obtain ⟨more, rfl⟩ : ∃ n, more = n + 1 := ⟨more - 1, by omega⟩
      refine .branched decomposed ?_ early
      rw [← level] at searched
      refine (anyLeaf_congr ?_ _ _).trans searched
      intro leaf member parent inside state
      have smaller := (decomposed.reduces (mem_of_mem_firstOf member) inside).1
      exact ih left (Nat.lt_succ_self left) (by omega) (by omega) (by omega) (by omega) (by omega)

theorem run_withDepth (setting : Setting) {goal : Sequent} {deeper : Nat}
    (deep : goal.size ≤ setting.limits.depth) (deep' : goal.size ≤ deeper) :
    run (setting.withDepth deeper) goal = run setting goal :=
  visit_withDepth deep deep' (by simp [Setting.withDepth]) le_rfl le_rfl

theorem within_goal (setting : Setting) (goal : Sequent) :
    Within setting goal setting.limits.depth goal := by
  simp [Within]

theorem uncut_start (goal : Sequent) : (start goal).Uncut := by
  simp [State.Uncut, start]

end Search

namespace Session

variable (session : Session) (clock : Clock) {goal : Sequent} {deeper : Nat}

theorem maxDepth_le (goal : Sequent) :
    (session.prove clock goal).1.statistics.maxDepth ≤ min session.limits.depth goal.size :=
  (Search.maintains_maxDepth (session.setting clock) goal).visit (Search.within_goal _ _)
    (Nat.zero_le _)

theorem uncut_of_deep (deep : goal.size ≤ session.limits.depth) :
    ∀ entry ∈ (session.prove clock goal).1.trace, ∀ s, entry.event ≠ .cut s :=
  (Search.maintains_uncut (session.setting clock) deep).visit (Search.within_goal _ _)
    (Search.uncut_start goal)

theorem prove_withDepth (deep : goal.size ≤ session.limits.depth) (deep' : goal.size ≤ deeper) :
    ({ session with limits := { session.limits with depth := deeper } }.prove clock goal).1 =
      (session.prove clock goal).1 := by
  let other : Session := { session with limits := { session.limits with depth := deeper } }
  have setting : other.setting clock = (session.setting clock).withDepth deeper := rfl
  change (other.prove clock goal).1 = _
  simp only [prove, Search.visit_renew]
  rw [setting, Search.run_withDepth (session.setting clock) deep deep']

/-- Every step takes an operator away, so no branch is longer than the goal has operators,
and a limit that allows for them is never felt. The complexity of a sequent is no such
measure: a conjunction of two deep formulas is less complex than the two of them. -/
theorem depth_bounded_by_operators :
    (∀ (s : Sequent) (supply later : NameSupply) (branch : Branch),
      s.decompose supply = some (branch, later) →
        ∀ leaf ∈ branch.leaves, ∀ parent ∈ leaf.parents, parent.size < s.size) ∧
    (∃ (s : Sequent) (supply later : NameSupply) (branch : Branch),
      s.decompose supply = some (branch, later) ∧
        ∃ leaf ∈ branch.leaves, ∃ parent ∈ leaf.parents, s.complexity < parent.complexity) ∧
    ∀ (session : Session) (clock : Clock) (goal : Sequent),
      (session.prove clock goal).1.statistics.maxDepth ≤ min session.limits.depth goal.size ∧
      (goal.size ≤ session.limits.depth →
        (∀ entry ∈ ({ session with tracing := true }.prove clock goal).1.trace,
          ∀ s, entry.event ≠ .cut s) ∧
        ∀ deeper, goal.size ≤ deeper →
          ({ session with limits := { session.limits with depth := deeper } }.prove clock goal).1 =
            (session.prove clock goal).1) := by
  refine ⟨?_, ?_, ?_⟩
  · intro s supply later branch found leaf member parent inside
    exact ((Sequent.decomposition_of_decompose found).reduces member inside).1
  · let deep (text : String) : Formula := .neg (.neg (.atom text.toList))
    exact ⟨⟨[.bin .conj (deep "a") (deep "b")], []⟩, {}, {}, _, rfl, _, List.mem_singleton_self _,
      _, List.mem_singleton_self _, by decide⟩
  · intro session clock goal
    refine ⟨session.maxDepth_le clock goal, ?_⟩
    intro deep
    constructor
    · exact uncut_of_deep { session with tracing := true } clock deep
    · intro deeper deep'
      exact session.prove_withDepth clock deep deep'

theorem depth_bounded_by_operators_exactly :
    let goal : Sequent :=
      ⟨[.quant .all ['x'] (.bin .conj (.neg (.atom "<x> rests".toList)) (.atom "calm".toList))],
       [.quant .ex ['y'] (.neg (.atom "<y> rests".toList))]⟩
    let session : Session := { limits := { depth := 5, timeout := 1 } }
    (session.prove (fun _ => 0) goal).1.statistics.maxDepth ≤ 5 ∧
      (∀ entry ∈ ({ session with tracing := true }.prove (fun _ => 0) goal).1.trace,
        ∀ s, entry.event ≠ .cut s) ∧
      ({ limits := { depth := 6, timeout := 1 } : Session }.prove (fun _ => 0) goal).1 =
        (session.prove (fun _ => 0) goal).1 := by
  have ⟨_, _, bounded⟩ := depth_bounded_by_operators
  have ⟨depth, deep⟩ := bounded { limits := { depth := 5, timeout := 1 } } (fun _ => 0)
    ⟨[.quant .all ['x'] (.bin .conj (.neg (.atom "<x> rests".toList)) (.atom "calm".toList))],
     [.quant .ex ['y'] (.neg (.atom "<y> rests".toList))]⟩
  have ⟨uncut, same⟩ := deep (by decide)
  exact ⟨depth.trans (by decide), uncut, same 6 (by decide)⟩

end Session
end Turnstile
