import Turnstile.Check.Basic
import Turnstile.Search.Closure
import Turnstile.Search.Session
import Turnstile.Sequent.Reader

/-! Sample sequents with the answer they should get. -/
namespace Turnstile

structure Sample where
  sequent : String
  provable : Bool

namespace Sample

def propositional : List Sample :=
  [⟨"A |~ A", true⟩,
    ⟨"|~ A v ~(A)", true⟩,
    ⟨"A, A > B |~ B", true⟩,
    ⟨"A & B |~ B & A", true⟩,
    ⟨"A v B |~ B v A", true⟩,
    ⟨"|~ (A > B) > (~(B) > ~(A))", true⟩,
    ⟨"~(~(A)) |~ A", true⟩,
    ⟨"A |~ ~(~(A))", true⟩,
    ⟨"|~ ((A > B) > A) > A", true⟩,
    ⟨"A v B, ~(A) |~ B", true⟩,
    ⟨"A > B, B > C |~ A > C", true⟩,
    ⟨"~(A & B) |~ ~(A) v ~(B)", true⟩,
    ⟨"~(A) v ~(B) |~ ~(A & B)", true⟩,
    ⟨"~(A v B) |~ ~(A) & ~(B)", true⟩,
    ⟨"A & (B v C) |~ (A & B) v (A & C)", true⟩,
    ⟨"A, ~(A) |~ B", true⟩,
    ⟨"|~ A > (B > A)", true⟩,
    ⟨"A implies B, not B |~ not A", true⟩,
    ⟨"A |~ B", false⟩,
    ⟨"A > B, B |~ A", false⟩,
    ⟨"|~ A & ~(A)", false⟩,
    ⟨"A v B |~ A", false⟩,
    ⟨"A > B |~ B > A", false⟩,
    ⟨"~(A & B) |~ ~(A) & ~(B)", false⟩,
    ⟨"|~ A", false⟩,
    ⟨"A |~", false⟩]

/-- The last sequent is valid, but its universal formula is used up before the
name that it needs is introduced. -/
def firstOrder : List Sample :=
  [⟨"∀<x>(<x> runs) |~ <bob> runs", true⟩,
    ⟨"<bob> runs |~ ∃<x>(<x> runs)", true⟩,
    ⟨"∀<x>(<x> runs > <x> moves), <bob> runs |~ <bob> moves", true⟩,
    ⟨"∃<x>(<x> runs) |~ ∃<y>(<y> runs)", true⟩,
    ⟨"∀<x>(<x> runs & <x> sings) |~ <amy> sings", true⟩,
    ⟨"|~ ∀<x>(<x> runs v ~(<x> runs))", true⟩,
    ⟨"~(∃<x>(<x> runs)) |~ ∀<x>(~(<x> runs))", true⟩,
    ⟨"∃<x>(<x> runs) |~ ∀<y>(<y> runs)", false⟩,
    ⟨"<bob> runs |~ <amy> runs", false⟩,
    ⟨"∃<x>(<x> runs), ∃<x>(<x> sings) |~ ∃<x>(<x> runs & <x> sings)", false⟩,
    ⟨"∀<x>(<x> runs) |~ ∀<y>(<y> runs)", false⟩]

/-- Checks that the answer is a proof exactly if one is expected. A sample that
must be decided, or is provable, must not exhaust the search. -/
def checks (mustDecide : Bool) (number : Nat) (sample : Sample) : List Check :=
  let title := "Test " ++ toString number ++ ": " ++ sample.sequent
  match Sequent.read 1 sample.sequent.toList with
  | .error fault => [.holds false (title ++ " cannot be read: " ++ fault.message Sequent.Fault.description)]
  | .ok goal =>
    let verdict := (({} : Session).prove (fun _ => 0) goal).1.verdict
    let expected : Verdict := if sample.provable then .proved else .unproved
    let decided :=
      if mustDecide || sample.provable then
        [Check.holds (verdict != .exhausted) (title ++ " EXHAUSTED")]
      else []
    decided ++
      [.holds ((verdict == .proved) == sample.provable)
        (title ++ " [" ++ Closure.syntactic.name ++ "] expected " ++ expected.name ++ " got " ++
          verdict.name)]

def test (name : String) (mustDecide : Bool) (samples : List Sample) : Test :=
  ⟨name, (samples.zipIdx 1).flatMap fun (sample, number) => sample.checks mustDecide number⟩

def tests : List Test :=
  [test "propositional" true propositional, test "first_order" false firstOrder]

end Sample
end Turnstile
