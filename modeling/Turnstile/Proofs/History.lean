import Mathlib.Data.List.Nodup
import Turnstile.Proofs.Search

/-! The course of a search: the sequents that are visited and the names that are issued, in
the order in which that happens. A relation between states that holds of each step with
what happened in it holds of the whole search with its history. -/
namespace Turnstile

namespace NameSupply

/-- The names that were taken in the meantime. -/
def takenSince (later earlier : NameSupply) : List Name :=
  later.taken.toList.filter fun name => !earlier.isTaken name

theorem mem_takenSince {later earlier : NameSupply} {name : Name} :
    name ∈ later.takenSince earlier ↔
      later.isTaken name = true ∧ earlier.isTaken name = false := by
  simp only [takenSince, List.mem_filter, Std.TreeSet.mem_toList, Bool.not_eq_true']
  rfl

@[simp] theorem takenSince_self (supply : NameSupply) : supply.takenSince supply = [] := by
  rw [List.eq_nil_iff_forall_not_mem]
  intro name member
  obtain ⟨taken, free⟩ := mem_takenSince.mp member
  simp [free] at taken

theorem takenSince_fresh {supply later : NameSupply} {avoid : List Name} {name : Name}
    (issued : supply.fresh avoid = (name, later)) : later.takenSince supply = [name] := by
  have free := (fresh_spec issued).2.1
  have members : ∀ other, other ∈ later.takenSince supply ↔ other ∈ [name] := by
    intro other
    rw [mem_takenSince, isTaken_iff_of_fresh issued, List.mem_singleton]
    constructor
    · rintro ⟨rfl | old, new⟩
      · rfl
      · simp [new] at old
    · rintro rfl
      exact ⟨.inl rfl, free⟩
  have distinct : (later.takenSince supply).Nodup := by
    refine List.Nodup.filter _ (Std.TreeSet.distinct_toList.imp ?_)
    rintro a b other rfl
    exact other Std.ReflCmp.compare_self
  exact List.perm_singleton.mp
    ((List.perm_ext_iff_of_nodup distinct (List.nodup_singleton name)).mpr members)

/-- A step takes as many names as it issues. -/
theorem issued_eq {s : Sequent} {supply later : NameSupply} {branch : Branch}
    (decomposed : s.Decomposition supply branch later) :
    later.issued = supply.issued + (later.takenSince supply).length := by
  rcases decomposed.supply_eq with rfl | ⟨avoid, name, issued⟩
  · simp
  · rw [takenSince_fresh issued]
    obtain ⟨_, rfl⟩ := Prod.mk.inj issued
    rfl

end NameSupply

theorem Sequent.Decomposition.isName_witness {s : Sequent} {supply later : NameSupply}
    {branch : Branch} (decomposed : s.Decomposition supply branch later) {leaf : Leaf}
    (leafed : leaf ∈ branch.leaves) {name : Name} (named : leaf.witness = some name) :
    Text.isName name = true := by
  rcases decomposed.witness leafed named with old | ⟨avoid, issued⟩
  · exact isName_of_mem_names old
  · exact (NameSupply.fresh_spec issued).1

/-- What a search does that the names in sequents depend on. -/
inductive Moment where
  | visited (s : Sequent)
  | issued (name : Name)
deriving DecidableEq

namespace Moment

def sequent? : Moment → Option Sequent
  | visited s => some s
  | issued _ => none

def name? : Moment → Option Name
  | visited _ => none
  | issued name => some name

end Moment

/-- The sequent that an event is about. -/
def Event.sequent? : Event → Option Sequent
  | closed s | unclosed s | cut s | step s _ _ => some s
  | witness _ => none

namespace Search

section Loops

variable (visit : Sequent → State → Bool × State) (history : Sequent → State → List Moment)

def parentsHistory : List Sequent → State → List Moment
  | [], _ => []
  | parent :: rest, state =>
    let (success, later) := visit parent state
    history parent state ++ if success then parentsHistory rest later else []

def leavesHistory (start : Leaf → State → State) : List Leaf → State → List Moment
  | [], _ => []
  | leaf :: rest, state =>
    let (success, later) := allParents visit leaf.parents (start leaf state)
    parentsHistory visit history leaf.parents (start leaf state) ++
      if success then [] else leavesHistory start rest later

end Loops

/-- What happens in a visit. The states between the moments are those of the search. -/
def history (setting : Setting) : Nat → Sequent → State → List Moment
  | left, s, state =>
    let depth := setting.limits.depth - left
    let entered := state.enter depth
    .visited s ::
      if entered.timedOut || setting.expired entered.statistics.expanded then []
      else match s.decompose entered.supply, left with
        | some (branch, supply), left + 1 =>
          (supply.takenSince state.supply).map .issued ++
            leavesHistory (visit setting left) (history setting left)
              (fun leaf state => state.tryLeaf setting (depth + 1) leaf)
              (firstOf setting.limits.names branch.leaves)
              (state.branchOff setting depth s branch supply)
        | _, _ => []

section Equations

variable {setting : Setting} {left : Nat} {s : Sequent} {state : State}

theorem history_of_late (late : state.isLate setting = true) :
    history setting left s state = [.visited s] := by
  rw [history.eq_def]
  exact congrArg _ (if_pos late)

theorem history_of_isAtomic (atomic : s.isAtomic = true) :
    history setting left s state = [.visited s] := by
  rw [history.eq_def]
  simp [Sequent.decompose_eq_none_iff.mpr atomic]

theorem history_zero : history setting 0 s state = [.visited s] := by
  rw [history.eq_def]
  simp

theorem history_succ {branch : Branch} {supply : NameSupply}
    (early : state.isLate setting = false)
    (decomposed : s.Decomposition state.supply branch supply) :
    history setting (left + 1) s state =
      .visited s :: ((supply.takenSince state.supply).map .issued ++
        leavesHistory (visit setting left) (history setting left)
          (fun leaf state => state.tryLeaf setting (setting.limits.depth - (left + 1) + 1) leaf)
          (firstOf setting.limits.names branch.leaves)
          (state.branchOff setting (setting.limits.depth - (left + 1)) s branch supply)) := by
  have found : s.decompose (state.enter (setting.limits.depth - (left + 1))).supply =
      some (branch, supply) := decomposed.decompose_eq
  rw [history.eq_def]
  dsimp only
  rw [found]
  exact congrArg _ (if_neg (Bool.not_eq_true _ ▸ early))

end Equations

/-- Each step of a search is in the relation, where `Q` holds of the sequent visited; and `Q`
goes on to the parents and is not lost later. -/
structure Keeps (setting : Setting) (Q : Sequent → State → Prop)
    (R : State → List Moment → State → Prop) : Prop where
  refl : R state [] state
  trans : R state first between → R between second later → R state (first ++ second) later
  stable : R state moments later → Q s state → Q s later
  expire : Q s state → R state [.visited s] (state.enter depth).timeOut
  close : Q s state → s.isAtomic = true → s.isInitial = true →
    R state [.visited s] ((state.enter depth).close setting depth s)
  leaveOpen : Q s state → s.isAtomic = true → s.isInitial = false →
    R state [.visited s] ((state.enter depth).leaveOpen setting depth s)
  cut : Q s state → s.isAtomic = false →
    R state [.visited s] ((state.enter depth).cut setting depth s)
  branchOff (depth : Nat) : Q s state → s.Decomposition state.supply branch supply →
    R state (.visited s :: (supply.takenSince state.supply).map .issued)
      (state.branchOff setting depth s branch supply)
  tryLeaf : R state [] (state.tryLeaf setting depth leaf)
  finish : R state [] (state.finish rule success)
  parents (depth : Nat) : Q s state → s.Decomposition state.supply branch supply →
    ∀ leaf ∈ branch.leaves, ∀ parent ∈ leaf.parents,
      Q parent (state.branchOff setting depth s branch supply)

namespace Keeps

variable {setting : Setting} {Q : Sequent → State → Prop} {R : State → List Moment → State → Prop}

section Loops

variable {visit : Sequent → State → Bool × State} {history : Sequent → State → List Moment}

theorem allParents (step : Keeps setting Q R) {parents : List Sequent} {state : State}
    (each : ∀ parent ∈ parents, ∀ state, Q parent state →
      R state (history parent state) (visit parent state).2)
    (admitted : ∀ parent ∈ parents, Q parent state) :
    R state (parentsHistory visit history parents state)
      (Search.allParents visit parents state).2 := by
  induction parents generalizing state with
  | nil => exact step.refl
  | cons parent rest ih =>
    have first := each parent List.mem_cons_self state (admitted parent List.mem_cons_self)
    unfold parentsHistory Search.allParents
    cases outcome : visit parent state with
    | mk success later =>
      rw [outcome] at first
      cases success with
      | false => simpa using first
      | true =>
        refine step.trans first (ih (fun other member => each other (by simp [member])) ?_)
        intro other member
        exact step.stable first (admitted other (by simp [member]))

theorem anyLeaf (step : Keeps setting Q R) (depth : Nat) {leaves : List Leaf} {state : State}
    (each : ∀ leaf ∈ leaves, ∀ parent ∈ leaf.parents, ∀ state, Q parent state →
      R state (history parent state) (visit parent state).2)
    (admitted : ∀ leaf ∈ leaves, ∀ parent ∈ leaf.parents, Q parent state) :
    let start := fun leaf state => State.tryLeaf state setting depth leaf
    R state (leavesHistory visit history start leaves state)
      (Search.anyLeaf visit start leaves state).2 := by
  intro start
  induction leaves generalizing state with
  | nil => exact step.refl
  | cons leaf rest ih =>
    have entered : R state [] (start leaf state) := step.tryLeaf
    have first := step.trans entered (step.allParents (each leaf List.mem_cons_self)
      fun parent member => step.stable entered (admitted leaf List.mem_cons_self parent member))
    unfold leavesHistory Search.anyLeaf
    cases outcome : Search.allParents visit leaf.parents (start leaf state) with
    | mk success later =>
      rw [outcome] at first
      cases success with
      | true => simpa [outcome] using first
      | false =>
        refine step.trans first (ih (fun other member => each other (by simp [member])) ?_)
        intro other member parent inside
        exact step.stable first (admitted other (by simp [member]) parent inside)

theorem branched (step : Keeps setting Q R) (depth : Nat) {s : Sequent} {state : State}
    {branch : Branch} {supply : NameSupply} (admitted : Q s state)
    (decomposed : s.Decomposition state.supply branch supply)
    (each : ∀ parent state, Q parent state →
      R state (history parent state) (visit parent state).2) :
    let start := fun leaf state => State.tryLeaf state setting (depth + 1) leaf
    let leaves := firstOf setting.limits.names branch.leaves
    let off := state.branchOff setting depth s branch supply
    let outcome := Search.anyLeaf visit start leaves off
    R state (.visited s :: ((supply.takenSince state.supply).map .issued ++
      leavesHistory visit history start leaves off)) (outcome.2.finish branch.rule outcome.1) := by
  intro start leaves off outcome
  have first := step.branchOff depth admitted decomposed
  have searched : R off (leavesHistory visit history start leaves off) outcome.2 := by
    refine step.anyLeaf (depth + 1) (fun leaf _ parent _ => each parent) ?_
    intro leaf member
    exact step.parents depth admitted decomposed leaf (mem_of_mem_firstOf member)
  have last : R outcome.2 [] (outcome.2.finish branch.rule outcome.1) := step.finish
  have whole := step.trans (step.trans first searched) last
  rwa [List.append_nil] at whole

end Loops

theorem visit (step : Keeps setting Q R) {left : Nat} {s : Sequent} {state : State}
    (admitted : Q s state) :
    R state (history setting left s state) (Search.visit setting left s state).2 := by
  induction left using Nat.strong_induction_on generalizing s state with
  | _ left ih =>
    obtain ⟨⟨success, later⟩, run⟩ : ∃ outcome, Search.visit setting left s state = outcome :=
      ⟨_, rfl⟩
    rw [run]
    cases visited run with
    | expired late =>
      rw [history_of_late late]
      exact step.expire admitted
    | closed atomic common =>
      rw [history_of_isAtomic atomic]
      exact step.close admitted atomic common
    | unclosed atomic unshared =>
      rw [history_of_isAtomic atomic]
      exact step.leaveOpen admitted atomic unshared
    | cut compound =>
      rw [history_zero]
      exact step.cut admitted compound
    | @branched branch supply left _ _ decomposed searched early =>
      have whole := step.branched (setting.limits.depth - (left + 1)) admitted decomposed
        fun parent state => ih left (Nat.lt_succ_self left)
      dsimp only at whole
      rw [history_succ early decomposed]
      rwa [searched] at whole

end Keeps

/-- What a search reports is what happened in it. -/
structure Accounts (state : State) (moments : List Moment) (later : State) : Prop where
  expanded : later.statistics.expanded =
    state.statistics.expanded + (moments.filterMap Moment.sequent?).length
  issued : later.supply.issued =
    state.supply.issued + (moments.filterMap Moment.name?).length
  trace : ∀ entry ∈ later.trace, entry ∈ state.trace ∨
    ∀ s, entry.event.sequent? = some s → .visited s ∈ moments
  counter : ∀ s, later.counter = some s → state.counter = some s ∨ .visited s ∈ moments

namespace Accounts

variable {state between later : State} {moments first second : List Moment}

theorem refl (state : State) : Accounts state [] state :=
  ⟨rfl, rfl, fun _ member => .inl member, fun _ found => .inl found⟩

theorem trans (one : Accounts state first between) (two : Accounts between second later) :
    Accounts state (first ++ second) later := by
  constructor
  · rw [two.expanded, one.expanded, List.filterMap_append, List.length_append, Nat.add_assoc]
  · rw [two.issued, one.issued, List.filterMap_append, List.length_append, Nat.add_assoc]
  · intro entry member
    rcases two.trace entry member with old | new
    · refine (one.trace entry old).imp_right fun known s found => ?_
      exact List.mem_append_left _ (known s found)
    · exact .inr fun s found => List.mem_append_right _ (new s found)
  · intro s found
    rcases two.counter s found with old | new
    · exact (one.counter s old).imp_right (List.mem_append_left _)
    · exact .inr (List.mem_append_right _ new)

theorem count (accounts : Accounts state moments later) {update : Statistics → Statistics}
    (kept : ∀ n, (update n).expanded = n.expanded) :
    Accounts state moments (later.count update) :=
  ⟨(kept _).trans accounts.expanded, accounts.issued, accounts.trace, accounts.counter⟩

theorem cutoff (accounts : Accounts state moments later) :
    Accounts state moments (later.count fun n => { n with cutoffs := n.cutoffs + 1 }) :=
  accounts.count fun _ => rfl

theorem record (accounts : Accounts state moments later) (setting : Setting) (depth : Nat)
    (event : Event) (known : ∀ s, event.sequent? = some s → .visited s ∈ moments) :
    Accounts state moments (later.record setting depth event) := by
  unfold State.record
  split
  · refine ⟨accounts.expanded, accounts.issued, ?_, accounts.counter⟩
    intro entry member
    rcases Array.mem_push.mp member with old | rfl
    · exact accounts.trace entry old
    · exact .inr known
  · exact accounts

theorem enter (state : State) (depth : Nat) (s : Sequent) :
    Accounts state [.visited s] (state.enter depth) :=
  ⟨rfl, rfl, fun _ member => .inl member, fun _ found => .inl found⟩

end Accounts

theorem keeps_accounts (setting : Setting) : Keeps setting (fun _ _ => True) Accounts where
  refl := .refl _
  trans := .trans
  stable _ _ := trivial
  expire _ := ⟨rfl, rfl, fun _ member => .inl member, fun _ found => .inl found⟩
  close {s state depth} _ _ _ := by
    have counted : Accounts state [.visited s]
        ((state.enter depth).count fun n => { n with closed := n.closed + 1 }) :=
      (Accounts.enter state depth s).count fun _ => rfl
    exact counted.record setting depth (.closed s) (by simp [Event.sequent?])
  leaveOpen {s state depth} _ _ _ := by
    have counted : Accounts state [.visited s]
        ((state.enter depth).count fun n => { n with unclosed := n.unclosed + 1 }) :=
      (Accounts.enter state depth s).count fun _ => rfl
    have recorded := counted.record setting depth (.unclosed s) (by simp [Event.sequent?])
    refine ⟨recorded.expanded, recorded.issued, recorded.trace, ?_⟩
    intro t found
    have either : (state.counter <|> some s) = some t := found
    cases old : state.counter with
    | none => simpa [old, eq_comm] using either
    | some u => exact .inl (by simpa [old] using either)
  cut {s state depth} _ _ := by
    have counted := (Accounts.enter state depth s).cutoff
    exact counted.record setting depth (.cut s) (by simp [Event.sequent?])
  branchOff {s state branch supply} depth _ decomposed := by
    have entered : Accounts state (.visited s :: (supply.takenSince state.supply).map .issued)
        { state.enter depth with supply := supply } := by
      refine ⟨?_, ?_, fun _ member => .inl member, fun _ found => .inl found⟩
      · simp [State.enter, State.count, Moment.sequent?, Function.comp_def]
      · simp [List.filterMap_cons, Moment.name?, Function.comp_def, NameSupply.issued_eq decomposed]
    have recorded := entered.record setting depth (.step s branch.rule branch.principal)
      (by simp [Event.sequent?])
    unfold State.branchOff State.choose
    dsimp only
    split
    · exact recorded.cutoff
    · exact recorded
  tryLeaf {state depth leaf} := by
    unfold State.tryLeaf
    split
    · next name _ =>
      exact (Accounts.refl state).record setting depth (.witness name) (by simp [Event.sequent?])
    · exact .refl state
  finish {state rule success} := by
    unfold State.finish
    split
    · exact (Accounts.refl state).count fun _ => rfl
    · exact .refl state
  parents _ _ _ _ _ _ _ := trivial

/-- The same for what depends on the supply of names alone. A step that decomposes a sequent
visits it before it issues a name. -/
structure KeepsSupply (Q : Sequent → NameSupply → Prop)
    (R : NameSupply → List Moment → NameSupply → Prop) : Prop where
  refl : R supply [] supply
  trans : R supply first between → R between second later → R supply (first ++ second) later
  stable : R supply moments later → Q s supply → Q s later
  visited : Q s supply → R supply [.visited s] supply
  issued : Q s supply → s.Decomposition supply branch later →
    R supply ((later.takenSince supply).map .issued) later
  parents : Q s supply → s.Decomposition supply branch later →
    ∀ leaf ∈ branch.leaves, ∀ parent ∈ leaf.parents, Q parent later

namespace State

variable (state : State) (setting : Setting) (depth : Nat) (s : Sequent)

@[simp] theorem count_supply (update : Statistics → Statistics) :
    (state.count update).supply = state.supply := rfl

@[simp] theorem enter_supply : (state.enter depth).supply = state.supply := rfl

@[simp] theorem record_supply (event : Event) :
    (state.record setting depth event).supply = state.supply := by
  unfold record
  split <;> rfl

@[simp] theorem close_supply : (state.close setting depth s).supply = state.supply := by
  simp [close]

@[simp] theorem leaveOpen_supply : (state.leaveOpen setting depth s).supply = state.supply := by
  simp [leaveOpen]

@[simp] theorem cut_supply : (state.cut setting depth s).supply = state.supply := by
  simp [cut]

@[simp] theorem branchOff_supply (branch : Branch) (supply : NameSupply) :
    (state.branchOff setting depth s branch supply).supply = supply := by
  simp only [branchOff, choose]
  split <;> simp

@[simp] theorem tryLeaf_supply (leaf : Leaf) :
    (state.tryLeaf setting depth leaf).supply = state.supply := by
  unfold tryLeaf
  split <;> simp

@[simp] theorem finish_supply (rule : Rule) (success : Bool) :
    (state.finish rule success).supply = state.supply := by
  unfold finish
  split <;> rfl

end State

theorem KeepsSupply.keeps {Q : Sequent → NameSupply → Prop}
    {R : NameSupply → List Moment → NameSupply → Prop} (step : KeepsSupply Q R)
    (setting : Setting) :
    Keeps setting (fun s state => Q s state.supply)
      (fun state moments later => R state.supply moments later.supply) where
  refl := step.refl
  trans := step.trans
  stable := step.stable
  expire admitted := step.visited admitted
  close admitted _ _ := by simpa using step.visited admitted
  leaveOpen admitted _ _ := by simpa using step.visited admitted
  cut admitted _ := by simpa using step.visited admitted
  branchOff depth admitted decomposed := by
    rw [State.branchOff_supply]
    exact step.trans (step.visited admitted) (step.issued admitted decomposed)
  tryLeaf {state depth leaf} := by
    rw [State.tryLeaf_supply]
    exact step.refl
  finish {state rule success} := by
    rw [State.finish_supply]
    exact step.refl
  parents depth admitted decomposed := by
    rw [State.branchOff_supply]
    exact step.parents admitted decomposed

end Search

namespace Session

variable (session : Session) (clock : Clock) (goal : Sequent)

/-- What happens while a goal is proved. -/
def history : List Moment :=
  Search.history (session.setting clock) session.limits.depth goal (Search.start goal)

theorem accounts : Search.Accounts (Search.start goal) (session.history clock goal)
    (Search.run (session.setting clock) goal).2 :=
  (Search.keeps_accounts _).visit trivial

theorem expanded_eq : (session.prove clock goal).1.statistics.expanded =
    ((session.history clock goal).filterMap Moment.sequent?).length :=
  (session.accounts clock goal).expanded.trans (Nat.zero_add _)

theorem issued_eq : (session.prove clock goal).1.issued =
    ((session.history clock goal).filterMap Moment.name?).length :=
  (session.accounts clock goal).issued.trans (Nat.zero_add _)

variable {session clock goal}

theorem visited_of_trace {entry : Entry} (member : entry ∈ (session.prove clock goal).1.trace)
    {s : Sequent} (about : entry.event.sequent? = some s) :
    .visited s ∈ session.history clock goal := by
  rcases (session.accounts clock goal).trace entry member with none | known
  · simp [Search.start] at none
  · exact known s about

theorem visited_of_counter {s : Sequent} (found : (session.prove clock goal).1.counter = some s) :
    .visited s ∈ session.history clock goal := by
  have shown : (if (Search.run (session.setting clock) goal).1 then none
      else (Search.run (session.setting clock) goal).2.counter) = some s := found
  rw [Option.ite_none_left_eq_some] at shown
  rcases (session.accounts clock goal).counter s shown.2 with none | known
  · cases none
  · exact known

theorem history_of_keeps {Q : Sequent → NameSupply → Prop}
    {R : NameSupply → List Moment → NameSupply → Prop} (step : Search.KeepsSupply Q R)
    (admitted : Q goal (Search.start goal).supply) :
    R (Search.start goal).supply (session.history clock goal) (session.prove clock goal).2.supply :=
  (step.keeps _).visit admitted

end Session
end Turnstile
