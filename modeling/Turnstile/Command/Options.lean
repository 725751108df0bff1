import Turnstile.Search.Basic
import Turnstile.Text.Number

/-! The options of the command line. -/
namespace Turnstile

/-- A solver and several threads may be asked for. The search here has one thread and no
solver, so the answers do not depend on these two. -/
structure Options where
  input : Text := []
  selftest : Bool := false
  model : Bool := false
  stats : Bool := false
  trace : Bool := false
  solver : Bool := false
  help : Bool := false
  depth : Nat := 64
  names : Nat := 16
  timeout : Nat := 0
  threads : Nat := 0
deriving DecidableEq

namespace Options

inductive Flag where
  | selftest | model | stats | trace | solver | help
deriving DecidableEq

inductive Number where
  | depth | names | timeout | threads
deriving DecidableEq

/-- Why the arguments cannot be followed. -/
inductive Fault where
  | noNumber (option : Text)
  | notNumber (option value : Text)
  | negative (option : Text)
  | unknown (option : Text)
  | secondInput
  | noInput
deriving DecidableEq

def Fault.message : Fault → String
  | noNumber option => String.ofList option ++ " requires a number argument"
  | notNumber option value =>
    String.ofList option ++ " expects a number, got '" ++ String.ofList value ++ "'"
  | negative option => String.ofList option ++ " must be >= 0"
  | unknown option => "unknown option: " ++ String.ofList option
  | secondInput => "multiple inputs not supported"
  | noInput => "no input specified (use --help for usage)"

def flags : List (String × Flag) :=
  [("--selftest", .selftest), ("--model", .model), ("--stats", .stats), ("--trace", .trace),
    ("--z3", .solver), ("--help", .help), ("-h", .help)]

def numbers : List (String × Number) :=
  [("--depth", .depth), ("--names", .names), ("--timeout", .timeout), ("--threads", .threads),
    ("-j", .threads)]

def spelled? {α : Type} (table : List (String × α)) (arg : Text) : Option α :=
  (table.find? fun entry => entry.1.toList == arg).map Prod.snd

def raise (options : Options) : Flag → Options
  | .selftest => { options with selftest := true }
  | .model => { options with model := true }
  | .stats => { options with stats := true }
  | .trace => { options with trace := true }
  | .solver => { options with solver := true }
  | .help => { options with help := true }

def assign (options : Options) (n : Nat) : Number → Options
  | .depth => { options with depth := n }
  | .names => { options with names := n }
  | .timeout => { options with timeout := n }
  | .threads => { options with threads := n }

/-- The value of a numeric option: an integer of 32 bits that is not negative. -/
def readCount (option value : Text) : Except Fault Nat :=
  match Text.int32? value with
  | none => .error (.notNumber option value)
  | some n => if n < 0 then .error (.negative option) else .ok n.toNat

/-- Without an input there must be something else to do. -/
def check (options : Options) : Except Fault Options :=
  if !options.selftest && !options.help && options.input.isEmpty then .error .noInput
  else .ok options

/-- Follows the arguments from left to right. A sequent may start with `~` or `|~`,
never with `--`. An empty argument leaves room for another input. -/
def follow (options : Options) : List Text → Except Fault Options
  | [] => options.check
  | arg :: rest =>
    match spelled? flags arg, spelled? numbers arg with
    | some flag, _ => (options.raise flag).follow rest
    | none, some number =>
      match rest with
      | [] => .error (.noNumber arg)
      | value :: rest => do
        let n ← readCount arg value
        (options.assign n number).follow rest
    | none, none =>
      if ['-', '-'].isPrefixOf arg then .error (.unknown arg)
      else if !options.input.isEmpty then .error .secondInput
      else { options with input := arg }.follow rest

def ofArguments (args : List Text) : Except Fault Options := ({} : Options).follow args

def limits (options : Options) : Limits :=
  ⟨options.depth, options.names, options.timeout⟩

end Options
end Turnstile
