import Turnstile.Command.Run
import Turnstile.Proofs.Search

/-! Goals do not disturb one another. Whatever a prover and its supply did before, the next
search starts from the same state, so a report on many lines is made of the reports on each
line alone. -/
namespace Turnstile

/-- Two answers that differ at most in the time they took. -/
structure Outcome.Agrees (one two : Outcome) : Prop where
  verdict : one.verdict = two.verdict
  statistics : one.statistics = two.statistics
  counter : one.counter = two.counter
  trace : one.trace = two.trace
  issued : one.issued = two.issued

namespace Session

/-- What can be done with a prover and with the supply it shares. -/
inductive Action where
  | prove (clock : Clock) (goal : Sequent)
  | limit (limits : Limits)
  | trace (tracing : Bool)
  | fresh (avoid : List Name)
  | reserve (names : List Name)
  | reset

def act (session : Session) : Action → Session
  | .prove clock goal => (session.prove clock goal).2
  | .limit limits => { session with limits := limits }
  | .trace tracing => { session with tracing := tracing }
  | .fresh avoid => { session with supply := (session.supply.fresh avoid).2 }
  | .reserve names => { session with supply := session.supply.reserve names }
  | .reset => { session with supply := session.supply.reset }

/-- A new prover with a new supply and the same settings. -/
def anew (session : Session) : Session :=
  { limits := session.limits, tracing := session.tracing }

/-- Without a timeout neither the clock nor the deadline is looked at. -/
theorem setting_of_untimed {session : Session} (untimed : session.limits.timeout = 0)
    (clock : Clock) :
    session.setting clock = ⟨session.limits, session.tracing, fun _ => false⟩ := by
  simp [setting, untimed]

/-- The settings decide the answer, whatever else the prover has in its memory. -/
theorem prove_agrees (session other : Session) (limits : session.limits = other.limits)
    (tracing : session.tracing = other.tracing) (untimed : session.limits.timeout = 0)
    (clock clock' : Clock) (goal : Sequent) :
    (session.prove clock goal).1.Agrees (other.prove clock' goal).1 := by
  have same : session.setting clock = other.setting clock' := by
    rw [setting_of_untimed untimed, setting_of_untimed (limits ▸ untimed), limits, tracing]
  simp only [prove, Search.visit_renew, same]
  exact ⟨rfl, rfl, rfl, rfl, rfl⟩

end Session

namespace Text

theorem lines_append {line : Text} (whole : '\n' ∉ line) (rest : Text) :
    lines (line ++ '\n' :: rest) = line :: lines rest := by
  induction line with
  | nil => rfl
  | cons c line ih =>
    have other : c ≠ '\n' := (List.ne_of_not_mem_cons whole).symm
    simp [lines, ih (List.not_mem_of_not_mem_cons whole), glue, other]

/-- Every line ends with a newline. -/
def unlines (ls : List Text) : Text := ls.flatMap (· ++ ['\n'])

theorem lines_unlines {ls : List Text} (whole : ∀ line ∈ ls, '\n' ∉ line) :
    lines (unlines ls) = ls := by
  induction ls with
  | nil => rfl
  | cons line ls ih =>
    have later := ih fun other member => whole other (List.mem_cons_of_mem _ member)
    rw [unlines, List.flatMap_cons, List.append_assoc, List.singleton_append,
      lines_append (whole line List.mem_cons_self)]
    exact congrArg (line :: ·) later

theorem not_mem_of_mem_lines {t line : Text} (member : line ∈ lines t) : '\n' ∉ line := by
  induction t generalizing line with
  | nil => cases member
  | cons c rest ih =>
    unfold lines at member
    split at member
    · rcases List.mem_cons.mp member with rfl | later
      · exact List.not_mem_nil
      · exact ih later
    · next other =>
      have first : '\n' ≠ c := by
        rintro rfl
        exact other rfl
      cases found : lines rest with
      | nil =>
        rw [found] at member
        obtain rfl := List.mem_singleton.mp member
        simpa using first
      | cons piece pieces =>
        rw [found, glue] at member
        rcases List.mem_cons.mp member with rfl | later
        · exact List.not_mem_cons_of_ne_of_not_mem first (ih (by simp [found]))
        · exact ih (by simp [found, later])

/-- All lines but one made blank. -/
def isolate (i : Nat) (ls : List Text) : List Text :=
  ls.mapIdx fun j line => if j = i then line else []

@[simp] theorem isolate_zero (line : Text) (ls : List Text) :
    isolate 0 (line :: ls) = line :: List.replicate ls.length [] := by
  have blanks : (ls.mapIdx fun _ _ => ([] : Text)) = List.replicate ls.length [] :=
    List.eq_replicate_iff.mpr ⟨List.length_mapIdx, by simp [List.mem_mapIdx]⟩
  simpa [isolate, List.mapIdx_cons] using blanks

@[simp] theorem isolate_succ (i : Nat) (line : Text) (ls : List Text) :
    isolate (i + 1) (line :: ls) = [] :: isolate i ls := by
  simp [isolate, List.mapIdx_cons]

theorem not_mem_of_mem_isolate {i : Nat} {ls : List Text} (whole : ∀ line ∈ ls, '\n' ∉ line)
    {line : Text} (member : line ∈ isolate i ls) : '\n' ∉ line := by
  obtain ⟨j, bound, rfl⟩ := List.mem_mapIdx.mp member
  split
  · exact whole _ (List.getElem_mem bound)
  · exact List.not_mem_nil

end Text

namespace Options

/-- Nothing is asked for but what the goals decide: no times, no solver, no limit of time. -/
structure Plain (options : Options) : Prop where
  stats : options.stats = false
  model : options.model = false
  solver : options.solver = false
  timeout : options.timeout = 0

/-- The settings of the prover are those of the options. -/
structure Governs (options : Options) (session : Session) : Prop where
  limits : session.limits = options.limits
  tracing : session.tracing = options.trace

end Options

namespace Report

variable {options : Options} {session : Session}

theorem ofOutcome_of_agrees {one two : Outcome} (stats : options.stats = false)
    (agrees : one.Agrees two) (number : Nat) :
    ofOutcome options number one = ofOutcome options number two := by
  simp [ofOutcome, stats, agrees.verdict, agrees.trace, agrees.counter]

/-- What a new prover says of one line. -/
def alone (options : Options) (number : Nat) (line : Text) : Report :=
  (ofLine options (fun _ => 0) (Command.session options) number line).1

/-- A line is answered as by a new prover, and leaves the settings as they are. -/
theorem ofLine_spec (plain : options.Plain) (governs : options.Governs session) (clock : Clock)
    (number : Nat) (line : Text) :
    (ofLine options clock session number line).1 = alone options number line ∧
      options.Governs (ofLine options clock session number line).2 := by
  unfold alone ofLine
  cases goal? number line with
  | none => exact ⟨rfl, governs⟩
  | some input =>
    cases input with
    | error fault => exact ⟨rfl, governs⟩
    | ok goal =>
      have untimed : session.limits.timeout = 0 := by
        rw [governs.limits, Options.limits, plain.timeout]
        rfl
      have agrees := session.prove_agrees (Command.session options) governs.limits
        governs.tracing untimed clock (fun _ => 0) goal
      exact ⟨ofOutcome_of_agrees plain.stats agrees number, governs.limits, governs.tracing⟩

/-- What new provers say of the lines, one for each. -/
def answers (options : Options) : Nat → List Text → List Report
  | _, [] => []
  | number, line :: rest => alone options number line :: answers options (number + 1) rest

theorem ofLines_eq (plain : options.Plain) (governs : options.Governs session)
    (clocks : Nat → Clock) (number : Nat) (lines : List Text) :
    ofLines options clocks session number lines =
      ⟨(answers options number lines).flatMap outputs, (answers options number lines).any failed⟩ := by
  induction lines generalizing number session with
  | nil => rfl
  | cons line rest ih =>
    obtain ⟨own, kept⟩ := ofLine_spec plain governs (clocks number) number line
    simp only [ofLines, own, ih kept, append, answers, List.flatMap_cons, List.any_cons]

theorem outputs_of_blanks (options : Options) (number count : Nat) :
    (answers options number (List.replicate count [])).flatMap outputs = [] := by
  induction count generalizing number with
  | zero => rfl
  | succ count ih => exact ih (number + 1)

/-- Each line contributes what it contributes among blank ones. -/
theorem outputs_isolate (options : Options) (number : Nat) (lines : List Text) :
    (answers options number lines).flatMap outputs =
      (List.range lines.length).flatMap fun i =>
        (answers options number (Text.isolate i lines)).flatMap outputs := by
  induction lines generalizing number with
  | nil => rfl
  | cons line rest ih =>
    have blank : (alone options number []).outputs = [] := rfl
    simp only [List.length_cons, List.range_succ_eq_map, List.flatMap_cons, List.flatMap_map,
      Text.isolate_zero, Text.isolate_succ, answers, outputs_of_blanks, blank, List.append_nil,
      List.nil_append, ih (number + 1)]

theorem failed_alone {number : Nat} {line : Text} :
    (alone options number line).failed = true ↔
      Text.content line ≠ [] ∧ ∃ fault, Sequent.parse (Text.content line) = .error fault := by
  unfold alone ofLine goal?
  by_cases blank : Text.content line = []
  · simp [blank]
  · cases parsed : Sequent.parse (Text.content line) with
    | error fault => simp [blank, Sequent.read, parsed, Except.mapError, ofFault, failure]
    | ok goal => simp [blank, Sequent.read, parsed, Except.mapError, ofOutcome, out]

theorem failed_answers {number : Nat} {lines : List Text} :
    (answers options number lines).any failed = true ↔
      ∃ line ∈ lines, Text.content line ≠ [] ∧
        ∃ fault, Sequent.parse (Text.content line) = .error fault := by
  induction lines generalizing number with
  | nil => simp [answers]
  | cons line rest ih =>
    rw [answers, List.any_cons, Bool.or_eq_true, failed_alone, ih, List.exists_mem_cons_iff]

theorem exitCode_eq_one {report : Report} : report.exitCode = 1 ↔ report.failed = true := by
  unfold exitCode
  cases report.failed <;> decide

end Report

namespace Command

/-- The same files, in which all lines but one are blank. -/
def isolate (i : Nat) (file : Text → Option Text) : Text → Option Text := fun path =>
  (file path).map fun content => Text.unlines (Text.isolate i (Text.lines content))

theorem lines_isolate {file : Text → Option Text} {input : Text} {given : List Text}
    (found : lines file input = .ok given) {i : Nat} (bound : i < given.length) :
    lines (isolate i file) input = .ok (Text.isolate i given) := by
  unfold lines at found ⊢
  split at found
  · next isFile =>
    cases opened : file input with
    | none => simp [opened] at found
    | some content =>
      rw [opened] at found
      obtain rfl := Except.ok.inj found
      have whole : ∀ line ∈ Text.isolate i (Text.lines content), '\n' ∉ line := fun _ =>
        Text.not_mem_of_mem_isolate fun _ => Text.not_mem_of_mem_lines
      simp [isFile, isolate, opened, Text.lines_unlines whole]
  · next single =>
    obtain rfl := Except.ok.inj found
    obtain rfl : i = 0 := by simpa using bound
    simp [single]

theorem prepare_isolate {options : Options} {file : Text → Option Text} {given : List Text}
    (prepared : prepare options file = .ok given) {i : Nat} (bound : i < given.length) :
    prepare options (isolate i file) = .ok (Text.isolate i given) := by
  unfold prepare at prepared ⊢
  split at prepared
  · cases prepared
  · next ordinary =>
    split at prepared
    · cases prepared
    · next named =>
      have found : lines file options.input = .ok given := by
        cases result : lines file options.input with
        | error missing => simp [result, Except.mapError] at prepared
        | ok found => simpa [result, Except.mapError] using prepared
      simp [ordinary, named, lines_isolate found bound, Except.mapError]

/-- Nothing that a prover or its supply did before is seen in the answer to a goal. So every line
of the input gets the answer that it gets when all the others are blank, and the command fails
exactly if one of them cannot be read. -/
theorem goals_isolated :
    (∀ (history : List Session.Action) (clock other : Clock) (goal : Sequent),
      let session := history.foldl Session.act {}
      session.limits.timeout = 0 →
        (session.prove clock goal).1.Agrees (session.anew.prove other goal).1) ∧
    ∀ (options : Options) (file : Text → Option Text) (given : List Text),
      options.Plain → prepare options file = .ok given →
      ∀ (clocks : Nat → Clock) (others : Nat → Nat → Clock),
        (run options file clocks).outputs =
          ((List.range given.length).flatMap fun i =>
            (run options (isolate i file) (others i)).outputs) ∧
        ((run options file clocks).exitCode = 1 ↔
          ∃ line ∈ given, Text.content line ≠ [] ∧
            ∃ fault, Sequent.parse (Text.content line) = .error fault) := by
  constructor
  · intro history clock other goal session untimed
    exact session.prove_agrees session.anew rfl rfl untimed clock other goal
  · intro options file given plain prepared clocks others
    have governs : options.Governs (session options) := ⟨rfl, rfl⟩
    have whole : run options file clocks =
        ⟨(Report.answers options 1 given).flatMap Report.outputs,
          (Report.answers options 1 given).any Report.failed⟩ := by
      rw [run, prepared]
      exact Report.ofLines_eq plain governs clocks 1 given
    constructor
    · rw [whole, Report.outputs_isolate]
      refine List.flatMap_congr fun i member => ?_
      rw [run, prepare_isolate prepared (List.mem_range.mp member)]
      exact (congrArg Report.outputs (Report.ofLines_eq plain governs (others i) 1 _)).symm
    · rw [Report.exitCode_eq_one, whole]
      exact Report.failed_answers

/-- Before the goal a search was cut, a name was issued and another one reserved. In the file a line
that cannot be read stands before a comment and two goals that issue names. -/
theorem goals_isolated_after_failures :
    let goal : Sequent := ⟨[.quant .ex ['x'] (.atom "<x> runs".toList)], [.atom "<aa> runs".toList]⟩
    let session := [.limit { depth := 0 }, .prove (fun _ => 0) goal, .fresh [],
      .reserve ["ab".toList], .limit {}, .trace true].foldl Session.act {}
    let options : Options := { input := "goals.txt".toList, trace := true }
    let file : Text → Option Text := fun _ =>
      some "A & |~ B\n# none\nexists <x> <x> runs |~ A\n|~ forall <y> <y> rests".toList
    session.statistics.cutoffs = 1 ∧ session.supply.issued = 1 ∧
      (session.prove (fun _ => 0) goal).1.Agrees (session.anew.prove (fun _ => 7) goal).1 ∧
      (run options file fun _ _ => 0).exitCode = 1 ∧
      (run options file fun _ _ => 0).outputs =
        (List.range 4).flatMap fun i => (run options (isolate i file) fun _ _ => 0).outputs := by
  intro goal session options file
  have prepared : prepare options file = .ok ["A & |~ B".toList, "# none".toList,
      "exists <x> <x> runs |~ A".toList, "|~ forall <y> <y> rests".toList] := by decide +kernel
  obtain ⟨forgets, isolated⟩ := goals_isolated
  obtain ⟨outputs, exit⟩ := isolated options file _ ⟨rfl, rfl, rfl, rfl⟩ prepared (fun _ _ => 0)
    fun _ _ _ => 0
  refine ⟨by decide +kernel, by decide +kernel, forgets _ _ _ goal rfl, exit.mpr ?_, outputs⟩
  exact ⟨_, List.mem_cons_self, by decide +kernel,
    .member (.noOperand ['&'] "A &".toList), by decide +kernel⟩

end Command
end Turnstile
