import Turnstile.Proofs.Freshness

/-! Two searches in lockstep: one for a goal, the other for the goal with other names. Their
supplies skip different names, so they issue different ones. The renaming that relates the two
searches therefore changes at every name that is issued, but not for the names in use by then. -/
namespace Turnstile

/-- The later renaming agrees with the earlier one on the names in use at the earlier time, and
these stay in use. -/
structure Renaming.Extends (earlier later : NameSupply) (r other : Renaming) : Prop where
  grows : ∀ name, earlier.isTaken name = true → later.isTaken name = true
  agrees : ∀ name, Text.isName name = true → earlier.isTaken name = true → other name = r name

namespace Renaming.Extends

variable {earlier between later : NameSupply} {r other last : Renaming}

theorem refl (supply : NameSupply) (r : Renaming) : Extends supply supply r r :=
  ⟨fun _ taken => taken, fun _ _ _ => rfl⟩

theorem trans (first : Extends earlier between r other)
    (second : Extends between later other last) : Extends earlier later r last where
  grows name taken := second.grows name (first.grows name taken)
  agrees name named taken :=
    (second.agrees name named (first.grows name taken)).trans (first.agrees name named taken)

end Renaming.Extends

namespace NameSupply

/-- Two supplies that issued as many names. Where one has taken a name, the other has taken the
name it becomes, and different names become different ones. -/
structure Mirrors (r : Renaming) (one two : NameSupply) : Prop where
  injective : r.Injective
  issued : two.issued = one.issued
  taken : ∀ name, Text.isName name = true → one.isTaken name = true → two.isTaken (r name) = true

/-- The name issued here becomes the name issued there. Both are new, so exchanging the latter
with what the former became so far changes no name in use. -/
theorem Mirrors.fresh {r : Renaming} {one two later later' : NameSupply} {avoid avoid' : List Name}
    {name name' : Name} (mirrors : Mirrors r one two) (first : one.fresh avoid = (name, later))
    (second : two.fresh avoid' = (name', later')) :
    ∃ other : Renaming, other name = name' ∧ Renaming.Extends one later r other ∧
      Mirrors other later later' := by
  obtain ⟨named, free, _⟩ := fresh_spec first
  obtain ⟨named', free', _⟩ := fresh_spec second
  let other := (Renaming.swap (r.isName named) named').comp r
  have moved : other name = name' := Equiv.swap_apply_left _ _
  have agrees : ∀ known, Text.isName known = true → one.isTaken known = true →
      other known = r known := by
    intro known isName used
    apply Equiv.swap_apply_of_ne_of_ne
    · intro same
      rw [mirrors.injective isName named same, free] at used
      cases used
    · intro same
      have image := mirrors.taken known isName used
      rw [same, free'] at image
      cases image
  refine ⟨other, moved,
    ⟨fun known used => (isTaken_iff_of_fresh first).mpr (.inr used), agrees⟩, ?_, ?_, ?_⟩
  · exact Renaming.Injective.comp (Renaming.swap_injective _ _) mirrors.injective
  · obtain ⟨_, rfl⟩ := Prod.mk.inj first
    obtain ⟨_, rfl⟩ := Prod.mk.inj second
    exact congrArg (· + 1) mirrors.issued
  · intro known isName used
    rcases (isTaken_iff_of_fresh first).mp used with rfl | old
    · exact (isTaken_iff_of_fresh second).mpr (.inl moved)
    · rw [agrees known isName old]
      exact (isTaken_iff_of_fresh second).mpr (.inr (mirrors.taken known isName old))

end NameSupply

def Leaf.rename (r : Renaming) (leaf : Leaf) : Leaf :=
  ⟨leaf.witness.map r, leaf.parents.map (Sequent.rename r)⟩

namespace Sequent

/-- All names of the sequent are in use. -/
def Known (supply : NameSupply) (s : Sequent) : Prop := ∀ name ∈ s.names, supply.isTaken name = true

variable {s rest : Sequent} {side : Side} {supply later one two : NameSupply}
  {r other : Renaming}

theorem Known.mono (known : s.Known supply) (extension : Renaming.Extends supply later r other) :
    s.Known later :=
  fun name member => extension.grows name (known name member)

theorem rename_extends (extension : Renaming.Extends supply later r other)
    (known : s.Known supply) : s.rename other = s.rename r :=
  rename_congr fun name member =>
    extension.agrees name (isName_of_mem_names member) (known name member)

theorem map_rename_extends (extension : Renaming.Extends supply later r other) {l : List Sequent}
    (known : ∀ s ∈ l, s.Known supply) : l.map (rename other) = l.map (rename r) :=
  List.map_congr_left fun s member => rename_extends extension (known s member)

theorem Principal.known {f : Formula} (principal : s.Principal side f rest)
    (known : s.Known supply) :
    rest.Known supply ∧ ∀ name ∈ f.names, supply.isTaken name = true := by
  constructor
  · intro name member
    obtain ⟨g, among, inside⟩ := mem_names.mp member
    exact known name (mem_names.mpr ⟨g, (principal.mem_formulas g).mpr (.inr among), inside⟩)
  · intro name member
    exact known name (mem_names.mpr ⟨f, (principal.mem_formulas f).mpr (.inl rfl), member⟩)

/-- Of the names in an instance only the witness may be a new one. -/
theorem Principal.rename_instanceLeaf {q : Quantifier} {var : Text} {body : Formula} {name : Name}
    (principal : s.Principal side (.quant q var body) rest) (bound : s.WellBound)
    (known : s.Known supply) (extension : Renaming.Extends supply later r other)
    (named : Text.isName name = true) :
    (rest.instanceLeaf side var body name).rename other =
      (rest.rename r).instanceLeaf side var (body.rename r) (other name) := by
  obtain ⟨single, _, _⟩ := principal.wellBound_quant bound
  obtain ⟨restKnown, bodyKnown⟩ := principal.known known
  have body_eq : body.rename other = body.rename r := Formula.rename_congr fun name member =>
    extension.agrees name (Formula.isName_of_mem_names member) (bodyKnown name member)
  simp [Leaf.rename, instanceLeaf, rename_push_instantiate other rest side body single named,
    rename_extends extension restKnown, body_eq]

/-- A step at the renamed sequent does the same, up to a renaming that takes the new name along. -/
theorem Decomposition.mirror {branch : Branch} (decomposed : s.Decomposition one branch later)
    (bound : s.WellBound) (known : s.Known one) (mirrors : NameSupply.Mirrors r one two) :
    ∃ (other : Renaming) (image : Branch) (after : NameSupply),
      Renaming.Extends one later r other ∧ NameSupply.Mirrors other later after ∧
      (s.rename r).Decomposition two image after ∧ image.rule = branch.rule ∧
      image.leaves = branch.leaves.map (Leaf.rename other) := by
  cases decomposed with
  | propositional principal shape table =>
    exact ⟨r, _, two, .refl _ r, mirrors,
      .propositional (principal.rename r) (by simpa using shape) (table.rename r), rfl, rfl⟩
  | @eigenvariable side q var body rest name later principal rule issued =>
    obtain ⟨⟨name', after⟩, second⟩ : ∃ result,
      two.fresh ((rest.rename r).candidateNames (body.rename r)) = result := ⟨_, rfl⟩
    obtain ⟨other, rfl, extension, mirrored⟩ := mirrors.fresh issued second
    have leaf := principal.rename_instanceLeaf bound known extension
      (NameSupply.fresh_spec issued).1
    exact ⟨other, _, after, extension, mirrored,
      .eigenvariable (principal.rename_quant r) rule second, rfl, by simp [leaf]⟩
  | @candidates side q var body rest principal rule some =>
    have names := candidateNames_rename mirrors.injective rest body
    have leaves : (rest.candidateNames body).map
        (Leaf.rename r ∘ rest.instanceLeaf side var body) = (rest.candidateNames body).map
        ((rest.rename r).instanceLeaf side var (body.rename r) ∘ r) :=
      List.map_congr_left fun name member => principal.rename_instanceLeaf bound known (.refl _ r)
        (isName_of_mem_candidateNames member)
    refine ⟨r, _, two, .refl _ r, mirrors,
      .candidates (principal.rename_quant r) rule (by simpa [names] using some), rfl, ?_⟩
    rw [List.map_map, leaves, names, List.map_map]
  | @unnamed side q var body rest name later principal rule none issued =>
    obtain ⟨⟨name', after⟩, second⟩ : ∃ result, two.fresh [] = result := ⟨_, rfl⟩
    obtain ⟨other, rfl, extension, mirrored⟩ := mirrors.fresh issued second
    have leaf := principal.rename_instanceLeaf bound known extension
      (NameSupply.fresh_spec issued).1
    have names : (rest.rename r).candidateNames (body.rename r) = [] := by
      rw [candidateNames_rename mirrors.injective, none, List.map_nil]
    exact ⟨other, _, after, extension, mirrored,
      .unnamed (principal.rename_quant r) rule names second, rfl, by simp [leaf]⟩

end Sequent

namespace Search

namespace State

variable (state : State) (setting : Setting) (depth : Nat)

theorem record_eq (event : Event) : state.record setting depth event =
    { state with trace := (state.record setting depth event).trace } := by
  unfold record
  split <;> rfl

theorem tryLeaf_eq (leaf : Leaf) : state.tryLeaf setting depth leaf =
    { state with trace := (state.tryLeaf setting depth leaf).trace } := by
  unfold tryLeaf
  split
  · exact state.record_eq setting depth _
  · rfl

end State

/-- Two searches at the same point: what one has, the other has with other names. Their traces
do not matter, and one of them may have none. -/
structure Lockstep (r : Renaming) (one two : State) : Prop where
  supply : NameSupply.Mirrors r one.supply two.supply
  statistics : two.statistics = one.statistics
  counter : two.counter = one.counter.map (Sequent.rename r)
  known : ∀ s ∈ one.counter, s.Known one.supply
  running : one.timedOut = false ∧ two.timedOut = false

namespace Lockstep

variable {r other : Renaming} {one two : State} {setting image : Setting} {depth : Nat}

theorem count (step : Lockstep r one two) (update : Statistics → Statistics) :
    Lockstep r (one.count update) (two.count update) :=
  { step with statistics := congrArg update step.statistics }

theorem retrace (step : Lockstep r one two) (trace trace' : Array Entry) :
    Lockstep r { one with trace := trace } { two with trace := trace' } :=
  { step with }

theorem record (step : Lockstep r one two) (setting image : Setting) (depth : Nat)
    (event event' : Event) :
    Lockstep r (one.record setting depth event) (two.record image depth event') := by
  rw [one.record_eq, two.record_eq]
  exact step.retrace _ _

theorem tryLeaf (step : Lockstep r one two) (leaf leaf' : Leaf) :
    Lockstep r (one.tryLeaf setting depth leaf) (two.tryLeaf image depth leaf') := by
  rw [one.tryLeaf_eq, two.tryLeaf_eq]
  exact step.retrace _ _

theorem close (step : Lockstep r one two) (s s' : Sequent) :
    Lockstep r (one.close setting depth s) (two.close image depth s') :=
  (step.count _).record _ _ _ _ _

theorem cut (step : Lockstep r one two) (s s' : Sequent) :
    Lockstep r (one.cut setting depth s) (two.cut image depth s') :=
  (step.count _).record _ _ _ _ _

/-- Only the first open leaf is kept. -/
theorem leaveOpen (step : Lockstep r one two) {s : Sequent} (known : s.Known one.supply) :
    Lockstep r (one.leaveOpen setting depth s) (two.leaveOpen image depth (s.rename r)) := by
  have recorded := (step.count fun n => { n with unclosed := n.unclosed + 1 }).record setting image
    depth (.unclosed s) (.unclosed (s.rename r))
  refine { recorded with counter := ?_, known := ?_ }
  · change (two.counter <|> some (s.rename r)) = (one.counter <|> some s).map (Sequent.rename r)
    rw [step.counter]
    cases one.counter <;> rfl
  · intro t (found : (one.counter <|> some s) = some t)
    rw [State.leaveOpen_supply]
    cases old : one.counter with
    | none =>
      obtain rfl : s = t := by simpa [old] using found
      exact known
    | some first =>
      obtain rfl : first = t := by simpa [old] using found
      exact step.known first old

theorem finish (step : Lockstep r one two) (rule : Rule) (success : Bool) :
    Lockstep r (one.finish rule success) (two.finish rule success) := by
  unfold State.finish
  split
  · exact step.count _
  · exact step

/-- The counter-sequent has no new name. -/
theorem advance (step : Lockstep r one two) {later after : NameSupply}
    (extension : Renaming.Extends one.supply later r other)
    (mirrors : NameSupply.Mirrors other later after) :
    Lockstep other { one with supply := later } { two with supply := after } where
  supply := mirrors
  statistics := step.statistics
  counter := by
    rw [step.counter]
    exact Option.map_congr fun s found =>
      (Sequent.rename_extends extension (step.known s found)).symm
  known s found := (step.known s found).mono extension
  running := step.running

theorem branchOff (step : Lockstep r one two) {later after : NameSupply}
    (extension : Renaming.Extends one.supply later r other)
    (mirrors : NameSupply.Mirrors other later after) (limits : image.limits = setting.limits)
    {branch mirrored : Branch} (many : mirrored.leaves.length = branch.leaves.length)
    (s s' : Sequent) :
    Lockstep other (one.branchOff setting depth s branch later)
      (two.branchOff image depth s' mirrored after) := by
  have entered : Lockstep r (one.enter depth) (two.enter depth) := step.count _
  have recorded := (entered.advance extension mirrors).record setting image
    depth (.step s branch.rule branch.principal) (.step s' mirrored.rule mirrored.principal)
  simp only [State.branchOff, State.choose, limits, many]
  split
  · exact recorded.count fun n => { n with cutoffs := n.cutoffs + 1 }
  · exact recorded

end Lockstep

/-- The answers agree, and the states they come with are in lockstep again. -/
def InStep (r : Renaming) (before : NameSupply) (first second : Bool × State) : Prop :=
  ∃ success later later' other, first = (success, later) ∧ second = (success, later') ∧
    Renaming.Extends before later.supply r other ∧ Lockstep other later later'

theorem Lockstep.inStep {r : Renaming} {before : NameSupply} {one two : State}
    (step : Lockstep r one two) (success : Bool) (same : one.supply = before) :
    InStep r before (success, one) (success, two) :=
  ⟨success, one, two, r, rfl, rfl, same ▸ .refl _ r, step⟩

theorem InStep.since {r other : Renaming} {before between : NameSupply}
    {first second : Bool × State} (rest : InStep other between first second)
    (extension : Renaming.Extends before between r other) : InStep r before first second := by
  obtain ⟨success, later, later', last, one, two, further, ended⟩ := rest
  exact ⟨success, later, later', last, one, two, extension.trans further, ended⟩

/-- Whatever the names are, one visits the sequent in step with the other. -/
def Follows (one two : Sequent → State → Bool × State) (s : Sequent) : Prop :=
  ∀ r state state', Lockstep r state state' → s.Known state.supply →
    InStep r state.supply (one s state) (two (s.rename r) state')

section Loops

variable {one two : Sequent → State → Bool × State} {r : Renaming} {state state' : State}

theorem allParents_inStep {parents : List Sequent}
    (follows : ∀ parent ∈ parents, Follows one two parent)
    (known : ∀ parent ∈ parents, parent.Known state.supply) (step : Lockstep r state state') :
    InStep r state.supply (allParents one parents state)
      (allParents two (parents.map (Sequent.rename r)) state') := by
  induction parents generalizing r state state' with
  | nil => exact step.inStep true rfl
  | cons parent rest ih =>
    obtain ⟨follow, followRest⟩ := List.forall_mem_cons.mp follows
    obtain ⟨knownParent, knownRest⟩ := List.forall_mem_cons.mp known
    obtain ⟨success, later, later', other, first, second, extension, next⟩ :=
      follow r state state' step knownParent
    rw [List.map_cons, allParents, allParents, first, second]
    cases success with
    | false => exact (next.inStep false rfl).since extension
    | true =>
      -- The other parents have names in use only, so it does not matter that more are now.
      rw [← Sequent.map_rename_extends extension knownRest]
      have remaining := ih followRest (fun s member => (knownRest s member).mono extension) next
      exact remaining.since extension

/-- Of the leaves only the parents matter. -/
theorem anyLeaf_inStep {setting image : Setting} {depth : Nat} {leaves mirrored : List Leaf}
    (same : mirrored.map Leaf.parents =
      leaves.map fun leaf => leaf.parents.map (Sequent.rename r))
    (follows : ∀ leaf ∈ leaves, ∀ parent ∈ leaf.parents, Follows one two parent)
    (known : ∀ leaf ∈ leaves, ∀ parent ∈ leaf.parents, parent.Known state.supply)
    (step : Lockstep r state state') :
    InStep r state.supply
      (anyLeaf one (fun leaf state => state.tryLeaf setting depth leaf) leaves state)
      (anyLeaf two (fun leaf state => state.tryLeaf image depth leaf) mirrored state') := by
  induction leaves generalizing r state state' mirrored with
  | nil =>
    obtain rfl : mirrored = [] := by simpa using same
    exact step.inStep false rfl
  | cons leaf rest ih =>
    obtain ⟨leaf', rest', rfl, parents, others⟩ := List.map_eq_cons_iff.mp same
    obtain ⟨follow, followRest⟩ := List.forall_mem_cons.mp follows
    obtain ⟨knownLeaf, knownRest⟩ := List.forall_mem_cons.mp known
    have tried : Lockstep r (state.tryLeaf setting depth leaf) (state'.tryLeaf image depth leaf') :=
      step.tryLeaf leaf leaf'
    have supply := state.tryLeaf_supply setting depth leaf
    obtain ⟨success, later, later', other, first, second, extension, next⟩ :=
      allParents_inStep follow (supply ▸ knownLeaf) tried
    rw [supply] at extension
    rw [anyLeaf, anyLeaf, first, parents, second]
    cases success with
    | true => exact (next.inStep true rfl).since extension
    | false =>
      have unchanged : rest.map (fun leaf => leaf.parents.map (Sequent.rename r)) =
          rest.map fun leaf => leaf.parents.map (Sequent.rename other) :=
        List.map_congr_left fun leaf member =>
          (Sequent.map_rename_extends extension (knownRest leaf member)).symm
      have remaining := ih (others.trans unchanged) followRest
        (fun leaf member s inside => (knownRest leaf member s inside).mono extension) next
      exact remaining.since extension

end Loops

/-- The leaves of a step, where their parents are visited in step. -/
theorem branch_inStep {setting image : Setting} {left : Nat} {s : Sequent}
    {branch : Branch} {supply : NameSupply} {r : Renaming} {state state' : State}
    (decomposed : s.Decomposition state.supply branch supply)
    (limits : image.limits = setting.limits) (bound : s.WellBound) (known : s.Known state.supply)
    (follows : ∀ {parent : Sequent}, parent.WellBound →
      Follows (visit setting left) (visit image left) parent)
    (step : Lockstep r state state') (depth : Nat) :
    ∃ mirrored after, (s.rename r).Decomposition state'.supply mirrored after ∧
      mirrored.rule = branch.rule ∧ InStep r state.supply
        (anyLeaf (visit setting left) (fun leaf state => state.tryLeaf setting (depth + 1) leaf)
          (firstOf setting.limits.names branch.leaves)
          (state.branchOff setting depth s branch supply))
        (anyLeaf (visit image left) (fun leaf state => state.tryLeaf image (depth + 1) leaf)
          (firstOf setting.limits.names mirrored.leaves)
          (state'.branchOff image depth (s.rename r) mirrored after)) := by
  obtain ⟨other, mirrored, after, extension, mirrors, decomposed', rule, leaves⟩ :=
    decomposed.mirror bound known step.supply
  have started : Lockstep other (state.branchOff setting depth s branch supply)
      (state'.branchOff image depth (s.rename r) mirrored after) :=
    step.branchOff extension mirrors limits (by simp [leaves]) s (s.rename r)
  have parents : (firstOf setting.limits.names mirrored.leaves).map Leaf.parents =
      (firstOf setting.limits.names branch.leaves).map fun leaf =>
        leaf.parents.map (Sequent.rename other) := by
    rw [leaves, firstOf_map, List.map_map]
    rfl
  have issued := state.branchOff_supply setting depth s branch supply
  refine ⟨mirrored, after, decomposed', rule, .since ?_ (issued.symm ▸ extension)⟩
  refine anyLeaf_inStep parents ?_ ?_ started
  · intro leaf member parent inside
    exact follows (decomposed.wellBound bound leaf (mem_of_mem_firstOf member) parent inside)
  · intro leaf member parent inside
    rw [issued]
    exact keeps_issues.parents known decomposed leaf (mem_of_mem_firstOf member) parent inside

/-- Without a deadline, two searches with the same limits stay in lockstep. -/
theorem visit_follows {setting image : Setting} (limits : image.limits = setting.limits)
    (untimed : setting.Untimed) (untimed' : image.Untimed) {left : Nat} {s : Sequent}
    (bound : s.WellBound) : Follows (visit setting left) (visit image left) s := by
  induction left using Nat.strong_induction_on generalizing s with
  | _ left ih =>
    intro r state state' step known
    obtain ⟨⟨success, later⟩, run⟩ : ∃ outcome, visit setting left s state = outcome := ⟨_, rfl⟩
    have early : state'.isLate image = false := untimed'.isLate_eq_false step.running.2
    have entered (depth : Nat) : Lockstep r (state.enter depth) (state'.enter depth) := step.count _
    rw [run]
    cases visited run with
    | expired late => simp [untimed.isLate_eq_false step.running.1] at late
    | closed atomic common =>
      have second : Visited image (s.rename r) state' left true _ :=
        .closed (by rw [Sequent.isAtomic_rename, atomic]) (Sequent.isInitial_rename r common) early
      rw [second.visit_eq, limits]
      exact ((entered _).close s (s.rename r)).inStep true (by simp)
    | unclosed atomic unshared =>
      have unshared' : (s.rename r).isInitial = false := by
        by_contra common
        simp [Sequent.isInitial_of_rename step.supply.injective (by simpa using common)] at unshared
      have second : Visited image (s.rename r) state' left false _ :=
        .unclosed (by rw [Sequent.isAtomic_rename, atomic]) unshared' early
      rw [second.visit_eq, limits]
      exact ((entered _).leaveOpen known).inStep false (by simp)
    | cut compound =>
      have second : Visited image (s.rename r) state' 0 false _ :=
        .cut (by rw [Sequent.isAtomic_rename, compound]) early
      rw [second.visit_eq, limits]
      exact ((entered _).cut s (s.rename r)).inStep false (by simp)
    | @branched branch supply left _ last decomposed searched =>
      obtain ⟨mirrored, after, decomposed', rule, inStep⟩ := branch_inStep decomposed limits bound
        known (fun parentBound => ih left left.lt_succ_self parentBound) step
        (setting.limits.depth - (left + 1))
      obtain ⟨_, _, last', other, same, searched', extension, ended⟩ := inStep
      obtain ⟨rfl, rfl⟩ := Prod.mk.inj (searched.symm.trans same)
      have second : Visited image (s.rename r) state' (left + 1) success
          (last'.finish mirrored.rule success) := by
        refine .branched decomposed' ?_ early
        rw [limits]
        exact searched'
      rw [second.visit_eq, rule]
      refine ((ended.finish branch.rule success).inStep success rfl).since ?_
      rw [State.finish_supply]
      exact extension

theorem lockstep_start {r : Renaming} (injective : r.Injective) (goal : Sequent) :
    Lockstep r (start goal) (start (goal.rename r)) where
  supply := by
    refine ⟨injective, rfl, fun name _ taken => ?_⟩
    rw [isTaken_start] at taken ⊢
    rw [Sequent.names_rename injective]
    exact List.mem_map_of_mem taken
  statistics := rfl
  counter := rfl
  known _ found := by cases found
  running := ⟨rfl, rfl⟩

theorem run_inStep {setting image : Setting} (limits : image.limits = setting.limits)
    (untimed : setting.Untimed) (untimed' : image.Untimed) {goal : Sequent} (bound : goal.WellBound)
    {r : Renaming} (injective : r.Injective) :
    InStep r (start goal).supply (run setting goal) (run image (goal.rename r)) := by
  rw [run, run, limits]
  exact visit_follows limits untimed untimed' bound r _ _ (lockstep_start injective goal)
    fun name member => (isTaken_start goal name).mpr member

end Search

namespace Session

/-- How the names of a goal are spelled does not matter, as long as different names stay
different. The counter-sequents agree too, up to the names of the goal and those that the searches
issued. -/
theorem prove_rename (session other : Session) (clock clock' : Clock) {goal : Sequent}
    {r : Renaming} (bound : goal.WellBound) (injective : r.Injective)
    (limits : other.limits = session.limits) (untimed : session.limits.timeout = 0) :
    let one := (session.prove clock goal).1
    let two := (other.prove clock' (goal.rename r)).1
    two.verdict = one.verdict ∧ two.statistics = one.statistics ∧ two.issued = one.issued ∧
      ∃ last : Renaming, last.Injective ∧ (∀ name ∈ goal.names, last name = r name) ∧
        two.counter = one.counter.map (Sequent.rename last) := by
  have untimed' : other.limits.timeout = 0 := by rw [limits, untimed]
  obtain ⟨success, later, later', last, first, second, extension, ended⟩ :=
    Search.run_inStep limits (session.untimed_setting clock untimed)
      (other.untimed_setting clock' untimed') bound injective
  simp only [prove, Search.visit_renew, first, second]
  refine ⟨?_, ended.statistics, ended.supply.issued, last, ended.supply.injective, ?_, ?_⟩
  · simp [Search.verdict, ended.statistics, ended.running]
  · intro name member
    exact extension.agrees name (Sequent.isName_of_mem_names member)
      ((Search.isTaken_start goal name).mpr member)
  · cases success with
    | true => rfl
    | false => exact ended.counter

/-- With `aa` in the goal, other names are issued for `x` and `y`. -/
theorem prove_rename_issued :
    let goal : Sequent := ⟨[.quant .ex ['x'] (.atom "<x> sees <ann>".toList)],
      [.quant .all ['y'] (.atom "<y> sees <ann>".toList)]⟩
    let r : Renaming := .swap (a := "ann".toList) (b := "aa".toList) (by decide) (by decide)
    let one := (prove {} (fun _ => 0) goal).1
    let two := (prove { tracing := true } (fun _ => 7) (goal.rename r)).1
    one.verdict = .unproved ∧ two.verdict = one.verdict ∧ two.statistics = one.statistics ∧
      two.issued = one.issued ∧
      one.counter = some ⟨[.atom "<aa> sees <ann>".toList], [.atom "<ab> sees <ann>".toList]⟩ ∧
      two.counter = some ⟨[.atom "<ab> sees <aa>".toList], [.atom "<ac> sees <aa>".toList]⟩ := by
  intro goal r one two
  have bound : goal.WellBound := by decide
  have injective : r.Injective := Renaming.swap_injective _ _
  obtain ⟨verdict, statistics, issued, _⟩ :=
    prove_rename {} { tracing := true } (fun _ => 0) (fun _ => 7) bound injective rfl rfl
  have unproved : one.verdict = .unproved := by decide +kernel
  exact ⟨unproved, verdict, statistics, issued, by decide +kernel, by decide +kernel⟩

end Session
end Turnstile
