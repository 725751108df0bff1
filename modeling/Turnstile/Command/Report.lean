import Turnstile.Command.Elapsed
import Turnstile.Command.Options
import Turnstile.Search.Session
import Turnstile.Sequent.Reader

/-! What the command writes about its lines of input. -/
namespace Turnstile

inductive Stream where
  | out | err
deriving DecidableEq

structure Output where
  stream : Stream
  text : String
deriving DecidableEq

/-- Lines written to the two streams, in the order of writing. The command fails
if anything it was given could not be used. -/
structure Report where
  outputs : List Output := []
  failed : Bool := false
deriving DecidableEq

namespace Report

def exitCode (report : Report) : UInt32 := if report.failed then 1 else 0

/-- All that was written to a stream. -/
def written (report : Report) (stream : Stream) : String :=
  String.join ((report.outputs.filter (·.stream == stream)).map Output.text)

def append (first second : Report) : Report :=
  ⟨first.outputs ++ second.outputs, first.failed || second.failed⟩

def out (lines : List String) : Report := ⟨lines.map fun line => ⟨.out, line ++ "\n"⟩, false⟩

def failure (message : String) : Report := ⟨[⟨.err, message ++ "\n"⟩], true⟩

/-- What is said of the first open leaf of a failed search. -/
def counterLine : Option Sequent → String
  | some s => "  Counter-sequent: " ++ String.ofList s.render
  | none => "  Counter-sequent: (none reached)"

def ofOutcome (options : Options) (number : Nat) (outcome : Outcome) : Report :=
  let verdict := [toString number ++ ": " ++ outcome.verdict.name]
  let stats :=
    if options.stats then
      ["  Stats: " ++ outcome.statistics.render ++ " time=" ++
        Elapsed.seconds outcome.elapsed.toNat ++ "s"]
    else []
  let trace :=
    if options.trace then outcome.trace.toList.map fun entry => "  " ++ entry.render else []
  let counter :=
    if options.model && outcome.verdict != .proved then [counterLine outcome.counter] else []
  out (verdict ++ stats ++ trace ++ counter)

/-- The goal on a line. A blank line or a comment has none. -/
def goal? (number : Nat) (line : Text) : Option (Except (Located Sequent.Fault) Sequent) :=
  if Text.content line = [] then none else some (Sequent.read number (Text.content line))

def ofFault (fault : Located Sequent.Fault) : Report :=
  failure (fault.message Sequent.Fault.description)

def ofLine (options : Options) (clock : Clock) (session : Session) (number : Nat) (line : Text) :
    Report × Session :=
  match goal? number line with
  | none => ({}, session)
  | some (.error fault) => (ofFault fault, session)
  | some (.ok goal) =>
    let (outcome, session) := session.prove clock goal
    (ofOutcome options number outcome, session)

/-- Answers the lines from the given number on, each with its own clock. -/
def ofLines (options : Options) (clocks : Nat → Clock) (session : Session) (number : Nat) :
    List Text → Report
  | [] => {}
  | line :: rest =>
    let (report, session) := ofLine options (clocks number) session number line
    report.append (ofLines options clocks session (number + 1) rest)

end Report
end Turnstile
