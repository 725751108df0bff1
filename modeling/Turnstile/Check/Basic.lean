import Turnstile.Message

/-! Tests made of checks, the tally of each test and the summary of all. -/
namespace Turnstile

/-- A test that aborts performs no further checks. -/
inductive Check where
  | holds (ok : Bool) (description : String)
  | equal (actual expected description : String)
  | abort (message : String)

structure Test where
  name : String
  checks : List Check

structure Tally where
  total : Nat := 0
  failed : Nat := 0

structure Summary where
  tests : Tally := {}
  checks : Tally := {}

namespace Tally

def add (tally : Tally) (ok : Bool) : Tally :=
  ⟨tally.total + 1, if ok then tally.failed else tally.failed + 1⟩

def plus (first second : Tally) : Tally :=
  ⟨first.total + second.total, first.failed + second.failed⟩

def passed (tally : Tally) : Int := tally.total - tally.failed

end Tally

namespace Test

/-- What a failed check writes. -/
def complaint (ok : Bool) (description : String) (details : String) : String :=
  if ok then "" else "  FAIL: " ++ description ++ "\n" ++ details

/-- The tally after each check, the tally at the end, and what is written. An
abort counts as a failure but not as a check. -/
def perform : List Check → Tally → List Tally × Tally × String
  | [], tally => ([], tally, "")
  | check :: rest, tally =>
    match check with
    | .abort message =>
      ([], { tally with failed := tally.failed + 1 }, "  EXCEPTION: " ++ shown message ++ "\n")
    | .holds ok description =>
      let tally := tally.add ok
      let (tallies, last, written) := perform rest tally
      (tally :: tallies, last, complaint ok description "" ++ written)
    | .equal actual expected description =>
      let ok := actual == expected
      let tally := tally.add ok
      let details := "    expected: " ++ expected ++ "\n    actual:   " ++ actual ++ "\n"
      let (tallies, last, written) := perform rest tally
      (tally :: tallies, last, complaint ok description details ++ written)

/-- A test passes if nothing in it failed. -/
def run (test : Test) : List Tally × Tally × String :=
  let (tallies, last, written) := perform test.checks {}
  let verdict := if last.failed = 0 then "  OK (" ++ toString last.total ++ " checks)\n" else ""
  (tallies, last, "TEST: " ++ test.name ++ "\n" ++ written ++ verdict)

end Test

namespace Summary

def add (summary : Summary) (tally : Tally) : Summary :=
  ⟨summary.tests.add (tally.failed == 0), summary.checks.plus tally⟩

def ok (summary : Summary) : Bool := summary.tests.failed == 0

def render (summary : Summary) : String :=
  let count := fun (tally : Tally) (word : String) =>
    toString tally.total ++ word ++ toString tally.passed ++ " passed, " ++
      toString tally.failed ++ " failed\n"
  "\n=== Test Summary ===\n" ++
    "Tests:  " ++ count summary.tests " run, " ++
    "Checks: " ++ count summary.checks " total, " ++
    (if summary.ok then "ALL TESTS PASSED\n" else "SOME TESTS FAILED\n")

/-- Runs tests in order: all tallies, the summary, and what is written before it. -/
def ofTests : List Test → Summary → List Tally × Summary × String
  | [], summary => ([], summary, "")
  | test :: rest, summary =>
    let (tallies, last, written) := test.run
    let (more, summary, others) := ofTests rest (summary.add last)
    (tallies ++ more, summary, written ++ others)

end Summary
end Turnstile
