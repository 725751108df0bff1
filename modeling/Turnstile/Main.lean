import Turnstile.Command.Run

/-! The program: reads the clock and the file, and writes the reports. -/
namespace Turnstile.Main

def write (report : Report) : IO Unit := do
  let out ← IO.getStdout
  let err ← IO.getStderr
  for output in report.outputs do
    match output.stream with
    | .out => out.putStr output.text
    | .err => err.putStr output.text
  out.flush
  err.flush

def contentOf (path : Text) : IO (Option Text) := do
  try
    let content ← IO.FS.readFile (String.ofList path)
    return some content.toList
  catch _ => return none

/-- Lets the search visit `budget` sequents before its time is up, and twice as
many as long as there is time. -/
partial def prove (session : Session) (goal : Sequent) (start budget : Nat) :
    IO (Outcome × Session) := do
  let deadline : Int := start + session.limits.timeout * 1000000000
  let clock : Clock := fun visited => if visited ≤ budget then start else deadline
  let (outcome, later) ← IO.lazyPure fun _ => session.prove clock goal
  let now ← IO.monoNanosNow
  if session.limits.timeout != 0 && budget < outcome.statistics.expanded && now < deadline then
    prove session goal start (2 * budget)
  else return ({ outcome with elapsed := now - start }, later)

def answerLines (options : Options) (lines : List Text) : IO UInt32 := do
  let mut session := Command.session options
  let mut failed := false
  for (line, number) in lines.zipIdx 1 do
    let mut report : Report := {}
    match Report.goal? number line with
    | none => pure ()
    | some (.error fault) => report := Report.ofFault fault
    | some (.ok goal) =>
      let start ← IO.monoNanosNow
      let (outcome, later) ← prove session goal start 1024
      session := later
      report := Report.ofOutcome options number outcome
    write report
    failed := failed || report.failed
  return if failed then 1 else 0

def run (args : List String) : IO UInt32 := do
  let program ← IO.appPath
  match Command.understand (program.fileName.getD "") (args.map String.toList) with
  | .error report =>
    write report
    return report.exitCode
  | .ok options =>
    let content ← if Command.namesFile options.input then contentOf options.input else pure none
    match Command.prepare options (fun _ => content) with
    | .error report =>
      write report
      return report.exitCode
    | .ok lines => answerLines options lines

end Turnstile.Main

def main (args : List String) : IO UInt32 := Turnstile.Main.run args
