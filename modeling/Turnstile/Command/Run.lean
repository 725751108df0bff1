import Turnstile.Check.Sample
import Turnstile.Command.Report

/-! The command from its arguments to its report. -/
namespace Turnstile

/-- A file that cannot be opened. -/
structure Unreadable where
  path : Text

def Unreadable.message (missing : Unreadable) : String :=
  "cannot open file: " ++ String.ofList missing.path

namespace Command

def usage (program : String) : String :=
  "Usage: " ++ program ++ " [OPTIONS] <sequent | input.txt>\n" ++
    "       " ++ program ++ " --selftest\n" ++
    "\n" ++
    "First-order sequent-calculus prover.\n" ++
    "\n" ++
    "Options:\n" ++
    "  <sequent> | <input.txt>  Sequent such as \"A, (A > B) |~ B\", or a\n" ++
    "                           file with one sequent per line\n" ++
    "  --selftest    Run built-in tests\n" ++
    "  --stats       Show search statistics\n" ++
    "  --trace       Print the explored decomposition tree (single thread)\n" ++
    "  --model       Show a counter-sequent and Z3 counter-model when unproved\n" ++
    "  --z3          Use Z3 to close quantifier-free sequents\n" ++
    "  --depth N     Maximum rule applications along a branch (default 64)\n" ++
    "  --names N     Maximum witnesses tried per quantifier rule (default 16)\n" ++
    "  --timeout S   Give up after S seconds (0 = none, default)\n" ++
    "  --threads N, -j N  Set number of OpenMP threads (0 = auto, default)\n" ++
    "  --help, -h    Show this message\n" ++
    "\n" ++
    "Input format:\n" ++
    "  - One sequent per line, sides separated by |~, members by commas\n" ++
    "  - Empty lines and lines starting with # are ignored\n" ++
    "  - Inline comments: everything after # is ignored\n" ++
    "\n" ++
    "Verdicts:\n" ++
    "  PROVED     a closed proof tree was found\n" ++
    "  UNPROVED   the complete search left an open branch\n" ++
    "  EXHAUSTED  no proof found, but a bound was hit or a forall-left /\n" ++
    "             exists-right step failed (those steps are applied once,\n" ++
    "             so a valid sequent may still land here)\n"

/-- An input that ends in `.txt` names a file. -/
def namesFile (input : Text) : Bool := ".txt".toList.isSuffixOf input

/-- The lines to be answered. A file is opened by `file`, which has no content to
give for one that cannot be. -/
def lines (file : Text → Option Text) (input : Text) : Except Unreadable (List Text) :=
  if namesFile input then
    match file input with
    | some content => .ok (Text.lines content)
    | none => .error ⟨input⟩
  else .ok [input]

def selfTest : Report :=
  let (_, summary, written) := Summary.ofTests Sample.tests {}
  ⟨[⟨.err, written ++ summary.render⟩], !summary.ok⟩

def session (options : Options) : Session :=
  { limits := options.limits, tracing := options.trace }

/-- The answer to options that ask for no lines, or the lines to be answered. -/
def prepare (options : Options) (file : Text → Option Text) : Except Report (List Text) :=
  if options.selftest then .error selfTest
  else if options.input = [] then
    .error (.failure ("ERROR: " ++ Options.Fault.noInput.message))
  else (lines file options.input).mapError fun missing => .failure ("ERROR: " ++ missing.message)

def run (options : Options) (file : Text → Option Text) (clocks : Nat → Clock) : Report :=
  match prepare options file with
  | .error report => report
  | .ok lines => Report.ofLines options clocks (session options) 1 lines

/-- The options, or the answer to arguments that ask for the usage or cannot be
followed. -/
def understand (program : String) (args : List Text) : Except Report Options :=
  match Options.ofArguments args with
  | .error fault =>
    .error ⟨[⟨.err, "ERROR: " ++ fault.message ++ "\n"⟩, ⟨.err, usage program⟩], true⟩
  | .ok options =>
    if options.help then .error ⟨[⟨.err, usage program⟩], false⟩ else .ok options

def answer (program : String) (args : List Text) (file : Text → Option Text)
    (clocks : Nat → Clock) : Report :=
  match understand program args with
  | .error report => report
  | .ok options => run options file clocks

end Command
end Turnstile
