import Turnstile.Proofs.History

/-! The counters of a search and its trace. Whenever a sequent is visited, one entry is made and
the counters are moved with it, so they can be read off the trace at any time. Whether a trace is
kept makes no difference to the search. -/
namespace Turnstile

namespace Sequent

/-- The number of ways to apply the rule of a sequent. It does not depend on the names in use. -/
def width (s : Sequent) : Nat := (s.decompose {}).elim 0 fun branching => branching.1.leaves.length

theorem Focus.length_leaves (focus : Focus) (supply other : NameSupply) :
    (focus.branch supply).map (fun branching => branching.1.leaves.length) =
      (focus.branch other).map fun branching => branching.1.leaves.length := by
  unfold branch
  split
  · rfl
  · rfl
  · rfl
  · simp only [quantifierLeaves, Option.map_some]
    split
    · rfl
    · split <;> rfl

namespace Decomposition

variable {s : Sequent} {supply later : NameSupply} {branch : Branch}

theorem width_eq (decomposed : s.Decomposition supply branch later) :
    s.width = branch.leaves.length := by
  have found := decomposed.decompose_eq
  obtain ⟨focus, focused, branched⟩ := Option.bind_eq_some_iff.mp found
  have lengths := focus.length_leaves {} supply
  rw [branched] at lengths
  obtain ⟨branching, there, length⟩ := Option.map_eq_some_iff.mp lengths
  rw [width, decompose, focused, Option.bind_some, there]
  exact length

end Decomposition

theorem Principal.names_eq_nil_iff {s rest : Sequent} {side : Side} {q : Quantifier} {var : Text}
    {body : Formula} (principal : s.Principal side (.quant q var body) rest) :
    s.names = [] ↔ rest.candidateNames body = [] := by
  have members : ∀ name, name ∈ s.names ↔ name ∈ rest.candidateNames body := by
    intro name
    rw [candidateNames, List.mem_eraseDups, List.mem_append, mem_names, mem_names]
    constructor
    · rintro ⟨f, among, inside⟩
      rcases (principal.mem_formulas f).mp among with rfl | old
      · exact .inl inside
      · exact .inr ⟨f, old, inside⟩
    · rintro (inside | ⟨f, old, inside⟩)
      · exact ⟨_, (principal.mem_formulas _).mpr (.inl rfl), inside⟩
      · exact ⟨f, (principal.mem_formulas f).mpr (.inr old), inside⟩
  simp only [List.eq_nil_iff_forall_not_mem, members]

end Sequent

namespace Event

def isSequent (event : Event) : Bool := event.sequent?.isSome

@[simp] def isClosed : Event → Bool
  | closed _ => true
  | _ => false

@[simp] def isUnclosed : Event → Bool
  | unclosed _ => true
  | _ => false

@[simp] def isCut : Event → Bool
  | cut _ => true
  | _ => false

@[simp] def isStep : Event → Bool
  | step .. => true
  | _ => false

@[simp] def unclosed? : Event → Option Sequent
  | unclosed s => some s
  | _ => none

@[simp] def isEigenvariable : Event → Bool
  | step _ rule _ => rule.isEigenvariable
  | _ => false

/-- A reusable rule is applied where there is no name to apply it to. -/
@[simp] def isUnnamed : Event → Bool
  | step s rule _ => rule.isReusable && s.names.isEmpty
  | _ => false

/-- There are more leaves than may be tried. -/
def isCrowded (bound : Nat) : Event → Bool
  | step s _ _ => 0 < bound && bound < s.width
  | _ => false

end Event

/-- How many entries of a trace are of a kind. -/
def tally (kind : Event → Bool) (trace : Array Entry) : Nat :=
  trace.countP fun entry => kind entry.event

theorem tally_push (kind : Event → Bool) (trace : Array Entry) (entry : Entry) :
    tally kind (trace.push entry) = tally kind trace + (kind entry.event).toNat := by
  rw [tally, Array.countP_push, ← tally]
  cases kind entry.event <;> rfl

/-- A sequent is closed, left open, cut off, or a rule is applied to it. -/
theorem tally_isSequent (trace : Array Entry) : tally Event.isSequent trace =
    tally Event.isClosed trace + tally Event.isUnclosed trace + tally Event.isCut trace +
      tally Event.isStep trace := by
  simp only [tally, ← Array.countP_toList]
  induction trace.toList with
  | nil => rfl
  | cons entry rest ih =>
    simp only [List.countP_cons, ih]
    cases entry.event <;> simp [Event.isSequent, Event.sequent?] <;> omega

/-- A step issues a name if its rule needs a new one, or could use any and there is none. -/
theorem Sequent.Decomposition.issued_eq {s : Sequent} {supply later : NameSupply} {branch : Branch}
    (decomposed : s.Decomposition supply branch later) :
    later.issued = supply.issued + branch.rule.isEigenvariable.toNat +
      (branch.rule.isReusable && s.names.isEmpty).toNat := by
  cases decomposed with
  | propositional _ shape table => cases table <;> cases shape <;> rfl
  | eigenvariable _ rule issued =>
    obtain ⟨_, rfl⟩ := Prod.mk.inj issued
    simp [isReusable_quant, rule]
  | candidates principal rule some =>
    rw [isReusable_quant, Bool.not_eq_true'] at rule
    simp [rule, principal.names_eq_nil_iff, some]
  | unnamed principal rule none issued =>
    obtain ⟨_, rfl⟩ := Prod.mk.inj issued
    have empty := principal.names_eq_nil_iff.mpr none
    rw [isReusable_quant, Bool.not_eq_true'] at rule
    simp [isReusable_quant, rule, empty]

namespace Search

variable {setting : Setting} {state later : State} {depth bound : Nat} {s : Sequent}

theorem State.record_of_tracing (traced : setting.tracing = true) (state : State) (depth : Nat)
    (event : Event) : state.record setting depth event =
      { state with trace := state.trace.push ⟨depth, event⟩ } := if_pos traced

/-- A sequent is visited and an entry is made of it. -/
structure Notes (bound : Nat) (entry : Entry) (state later : State) : Prop where
  about : entry.event.isSequent = true
  trace : later.trace = state.trace.push entry
  expanded : later.statistics.expanded = state.statistics.expanded + 1
  closed : later.statistics.closed = state.statistics.closed + entry.event.isClosed.toNat
  unclosed : later.statistics.unclosed = state.statistics.unclosed + entry.event.isUnclosed.toNat
  cutoffs : later.statistics.cutoffs = state.statistics.cutoffs + entry.event.isCut.toNat +
    (entry.event.isCrowded bound).toNat
  maxDepth : later.statistics.maxDepth = max state.statistics.maxDepth entry.depth
  issued : later.supply.issued = state.supply.issued + entry.event.isEigenvariable.toNat +
    entry.event.isUnnamed.toNat
  counter : later.counter = state.counter.or entry.event.unclosed?
  reuseFailures : later.statistics.reuseFailures = state.statistics.reuseFailures
  running : later.timedOut = state.timedOut

theorem notes_close (traced : setting.tracing = true) (state : State) (depth : Nat) (s : Sequent) :
    Notes bound ⟨depth, .closed s⟩ state ((state.enter depth).close setting depth s) := by
  rw [State.close, State.record_of_tracing traced]
  constructor <;>
    simp [State.enter, State.count, Event.isSequent, Event.sequent?, Event.isCrowded]

theorem notes_leaveOpen (traced : setting.tracing = true) (state : State) (depth : Nat)
    (s : Sequent) :
    Notes bound ⟨depth, .unclosed s⟩ state ((state.enter depth).leaveOpen setting depth s) := by
  rw [State.leaveOpen, State.record_of_tracing traced]
  constructor <;>
    simp [State.enter, State.count, Event.isSequent, Event.sequent?, Event.isCrowded]

theorem notes_cut (traced : setting.tracing = true) (state : State) (depth : Nat) (s : Sequent) :
    Notes bound ⟨depth, .cut s⟩ state ((state.enter depth).cut setting depth s) := by
  rw [State.cut, State.record_of_tracing traced]
  constructor <;>
    simp [State.enter, State.count, Event.isSequent, Event.sequent?, Event.isCrowded]

theorem notes_branchOff (traced : setting.tracing = true) (depth : Nat) {branch : Branch}
    {supply : NameSupply} (decomposed : s.Decomposition state.supply branch supply) :
    Notes setting.limits.names ⟨depth, .step s branch.rule branch.principal⟩ state
      (state.branchOff setting depth s branch supply) := by
  have crowded : Event.isCrowded setting.limits.names (.step s branch.rule branch.principal) =
      decide (0 < setting.limits.names ∧ setting.limits.names < branch.leaves.length) := by
    rw [Event.isCrowded, decomposed.width_eq, Bool.decide_and]
  rw [State.branchOff, State.record_of_tracing traced, State.choose]
  dsimp only
  split
  · next more =>
    constructor <;> simp [State.enter, State.count, Event.isSequent, Event.sequent?,
      decomposed.issued_eq, crowded, more]
  · next fits =>
    rw [decide_eq_false fits] at crowded
    constructor <;> simp [State.enter, State.count, Event.isSequent, Event.sequent?,
      decomposed.issued_eq, crowded]

/-- The counters of a search that has its time are those of its trace. -/
structure Tallied (bound : Nat) (state : State) : Prop where
  expanded : state.statistics.expanded = tally Event.isSequent state.trace
  closed : state.statistics.closed = tally Event.isClosed state.trace
  unclosed : state.statistics.unclosed = tally Event.isUnclosed state.trace
  cutoffs : state.statistics.cutoffs =
    tally Event.isCut state.trace + tally (Event.isCrowded bound) state.trace
  above : ∀ entry ∈ state.trace, entry.event.isSequent = true →
    entry.depth ≤ state.statistics.maxDepth
  reached : state.statistics.expanded = 0 ∧ state.statistics.maxDepth = 0 ∨
    ∃ entry ∈ state.trace, entry.event.isSequent = true ∧ entry.depth = state.statistics.maxDepth
  issued : state.supply.issued =
    tally Event.isEigenvariable state.trace + tally Event.isUnnamed state.trace
  counter : state.counter = state.trace.findSome? fun entry => entry.event.unclosed?
  running : state.timedOut = false

theorem Tallied.notes {entry : Entry} (tallied : Tallied bound state)
    (noted : Notes bound entry state later) : Tallied bound later where
  expanded := by
    rw [noted.expanded, noted.trace, tally_push, noted.about, tallied.expanded]
    rfl
  closed := by rw [noted.closed, noted.trace, tally_push, tallied.closed]
  unclosed := by rw [noted.unclosed, noted.trace, tally_push, tallied.unclosed]
  cutoffs := by
    rw [noted.cutoffs, noted.trace, tally_push, tally_push, tallied.cutoffs]
    omega
  above other member about := by
    rw [noted.trace] at member
    rw [noted.maxDepth]
    rcases Array.mem_push.mp member with old | rfl
    · exact (tallied.above other old about).trans (le_max_left _ _)
    · exact le_max_right _ _
  reached := by
    rw [noted.trace, noted.maxDepth]
    right
    rcases tallied.reached with ⟨_, none⟩ | ⟨other, member, about, same⟩
    · exact ⟨entry, Array.mem_push_self, noted.about, by simp [none]⟩
    · rcases le_total state.statistics.maxDepth entry.depth with deeper | higher
      · exact ⟨entry, Array.mem_push_self, noted.about, (max_eq_right deeper).symm⟩
      · exact ⟨other, Array.mem_push_of_mem _ member, about, same.trans (max_eq_left higher).symm⟩
  issued := by
    rw [noted.issued, noted.trace, tally_push, tally_push, tallied.issued]
    omega
  counter := by
    rw [noted.counter, noted.trace, Array.findSome?_push, tallied.counter]
  running := noted.running.trans tallied.running

theorem Tallied.witness (tallied : Tallied bound state) (depth : Nat) (name : Name) :
    Tallied bound { state with trace := state.trace.push ⟨depth, .witness name⟩ } where
  expanded := by simp [tally_push, tallied.expanded, Event.isSequent, Event.sequent?]
  closed := by simp [tally_push, tallied.closed]
  unclosed := by simp [tally_push, tallied.unclosed]
  cutoffs := by simp [tally_push, tallied.cutoffs, Event.isCrowded]
  above entry member about := by
    rcases Array.mem_push.mp member with old | rfl
    · exact tallied.above entry old about
    · cases about
  reached := tallied.reached.imp_right fun ⟨entry, member, here⟩ =>
    ⟨entry, Array.mem_push_of_mem _ member, here⟩
  issued := by simp [tally_push, tallied.issued]
  counter := by simp [Array.findSome?_push, tallied.counter]
  running := tallied.running

theorem preserves_tallied (traced : setting.tracing = true) (untimed : setting.Untimed) :
    Preserves setting (fun _ _ => True) (Tallied setting.limits.names) where
  expire tallied late := by simp [untimed.isLate_eq_false tallied.running] at late
  close tallied := tallied.notes (notes_close traced _ _ _)
  leaveOpen tallied := tallied.notes (notes_leaveOpen traced _ _ _)
  cut tallied _ _ := tallied.notes (notes_cut traced _ _ _)
  branchOff tallied _ decomposed := tallied.notes (notes_branchOff traced _ decomposed)
  tryLeaf tallied := by
    unfold State.tryLeaf
    split
    · rw [State.record_of_tracing traced]
      exact tallied.witness _ _
    · exact tallied
  finish tallied _ _ := by
    unfold State.finish
    split
    · exact { tallied with }
    · exact tallied
  parents _ _ _ _ _ _ := trivial

theorem tallied_start (bound : Nat) (goal : Sequent) : Tallied bound (start goal) := by
  constructor <;> simp [start, tally]
  rfl

def State.untraced (state : State) : State := { state with trace := #[] }

def Setting.untraced (setting : Setting) : Setting := { setting with tracing := false }

/-- What a search comes to, without its trace. -/
def quietly (outcome : Bool × State) : Bool × State := (outcome.1, outcome.2.untraced)

namespace State

variable (state : State) (setting : Setting) (depth : Nat) (s : Sequent)

theorem untraced_record (event : Event) :
    (state.record setting depth event).untraced =
      state.untraced.record setting.untraced depth event := by
  unfold record
  split <;> rfl

theorem untraced_close : (state.close setting depth s).untraced =
    state.untraced.close setting.untraced depth s :=
  untraced_record _ _ _ _

theorem untraced_cut : (state.cut setting depth s).untraced =
    state.untraced.cut setting.untraced depth s :=
  untraced_record _ _ _ _

theorem untraced_leaveOpen : (state.leaveOpen setting depth s).untraced =
    state.untraced.leaveOpen setting.untraced depth s := by
  unfold leaveOpen record
  split <;> rfl

theorem untraced_branchOff (branch : Branch) (supply : NameSupply) :
    (state.branchOff setting depth s branch supply).untraced =
      state.untraced.branchOff setting.untraced depth s branch supply := by
  have chosen (state : State) : (state.choose setting branch.leaves).2.untraced =
      (state.untraced.choose setting.untraced branch.leaves).2 := by
    have bound : setting.untraced.limits = setting.limits := rfl
    simp only [choose, bound]
    split <;> rfl
  unfold branchOff
  dsimp only
  rw [chosen, untraced_record]
  rfl

theorem untraced_tryLeaf (leaf : Leaf) : (state.tryLeaf setting depth leaf).untraced =
    state.untraced.tryLeaf setting.untraced depth leaf := by
  unfold tryLeaf
  split
  · exact untraced_record _ _ _ _
  · rfl

theorem untraced_finish (rule : Rule) (success : Bool) :
    (state.finish rule success).untraced = state.untraced.finish rule success := by
  unfold finish
  split <;> rfl

end State

section Loops

variable {visit quiet : Sequent → State → Bool × State}

theorem allParents_untraced
    (same : ∀ parent state, quiet parent state.untraced = quietly (visit parent state))
    (parents : List Sequent) (state : State) :
    allParents quiet parents state.untraced = quietly (allParents visit parents state) := by
  induction parents generalizing state with
  | nil => rfl
  | cons parent rest ih =>
    rw [allParents, allParents, same]
    cases visit parent state with
    | mk answer next =>
      cases answer with
      | true => exact ih next
      | false => rfl

theorem anyLeaf_untraced {start quietStart : Leaf → State → State}
    (same : ∀ parent state, quiet parent state.untraced = quietly (visit parent state))
    (started : ∀ leaf state, quietStart leaf state.untraced = (start leaf state).untraced)
    (leaves : List Leaf) (state : State) :
    anyLeaf quiet quietStart leaves state.untraced =
      quietly (anyLeaf visit start leaves state) := by
  induction leaves generalizing state with
  | nil => rfl
  | cons leaf rest ih =>
    rw [anyLeaf, anyLeaf, started, allParents_untraced same]
    cases allParents visit leaf.parents (start leaf state) with
    | mk answer next =>
      cases answer with
      | true => rfl
      | false => exact ih next

end Loops

/-- Nothing in a search depends on its trace. -/
theorem visit_untraced (setting : Setting) (left : Nat) (s : Sequent) (state : State) :
    visit setting.untraced left s state.untraced = quietly (visit setting left s state) := by
  induction left using Nat.strong_induction_on generalizing s state with
  | _ left ih =>
    obtain ⟨⟨success, later⟩, run⟩ : ∃ outcome, visit setting left s state = outcome := ⟨_, rfl⟩
    rw [run]
    change visit setting.untraced left s state.untraced = (success, later.untraced)
    apply Visited.visit_eq
    cases visited run with
    | expired late => exact .expired late
    | closed atomic common early =>
      rw [State.untraced_close]
      exact .closed atomic common early
    | unclosed atomic unshared early =>
      rw [State.untraced_leaveOpen]
      exact .unclosed atomic unshared early
    | cut compound early =>
      rw [State.untraced_cut]
      exact .cut compound early
    | @branched branch supply left _ last decomposed searched early =>
      rw [State.untraced_finish]
      refine .branched decomposed ?_ early
      rw [← State.untraced_branchOff]
      refine (anyLeaf_untraced (ih left (Nat.lt_succ_self left)) ?_ _ _).trans
        (congrArg quietly searched)
      exact fun leaf state => (state.untraced_tryLeaf setting _ leaf).symm

end Search
end Turnstile
