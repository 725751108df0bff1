import Turnstile.Formula.Basic

/-! Sequents: two ordered lists of formulas, read as "if all on the left, then
some on the right". Order and repetition of members are kept. -/
namespace Turnstile

inductive Side where
  | antecedent | consequent
deriving DecidableEq

namespace Side

def name : Side → String
  | antecedent => "antecedent"
  | consequent => "consequent"

def letter : Side → Char
  | antecedent => 'L'
  | consequent => 'R'

def opposite : Side → Side
  | antecedent => consequent
  | consequent => antecedent

end Side

structure Sequent where
  antecedent : List Formula := []
  consequent : List Formula := []
deriving DecidableEq

namespace Sequent

def members (s : Sequent) : Side → List Formula
  | .antecedent => s.antecedent
  | .consequent => s.consequent

def withMembers (s : Sequent) (side : Side) (formulas : List Formula) : Sequent :=
  match side with
  | .antecedent => { s with antecedent := formulas }
  | .consequent => { s with consequent := formulas }

/-- All members, those of the antecedent first. -/
def formulas (s : Sequent) : List Formula := s.antecedent ++ s.consequent

/-- A new member goes to the end of its side. -/
def push (s : Sequent) (side : Side) (f : Formula) : Sequent :=
  s.withMembers side (s.members side ++ [f])

def mix (s t : Sequent) : Sequent :=
  ⟨s.antecedent ++ t.antecedent, s.consequent ++ t.consequent⟩

/-- The sum of a measure over formulas. -/
def total (measure : Formula → Nat) : List Formula → Nat
  | [] => 0
  | f :: rest => measure f + total measure rest

def complexity (s : Sequent) : Nat := total Formula.complexity s.formulas

/-- The number of operators in all members. -/
def size (s : Sequent) : Nat := total Formula.size s.formulas

def isAtomic (s : Sequent) : Bool := s.formulas.all Formula.isAtom

/-- The names in the sequent in the order of their first occurrence. -/
def names (s : Sequent) : List Name := (s.formulas.flatMap Formula.names).eraseDups

/-- Some formula stands on both sides, so the sequent holds whatever it says. -/
def isInitial (s : Sequent) : Bool := s.antecedent.any s.consequent.contains

/-- There is no member at this place. -/
structure NoMember where
  side : Side
  index : Nat
  size : Nat

def NoMember.message (missing : NoMember) : String :=
  "remove_at: index " ++ toString missing.index ++ " out of range for " ++ missing.side.name ++
    " of size " ++ toString missing.size

def removeAt (s : Sequent) (side : Side) (index : Nat) : Except NoMember (Formula × Sequent) :=
  match (s.members side)[index]? with
  | some f => .ok (f, s.withMembers side ((s.members side).eraseIdx index))
  | none => .error ⟨side, index, (s.members side).length⟩

/-- A compound member with its place and the sequent without it. -/
structure Focus where
  side : Side
  index : Nat
  principal : Formula
  rest : Sequent

/-- The first compound formula of a list, between those before and after it. -/
def splitCompound : List Formula → Option (List Formula × Formula × List Formula)
  | [] => none
  | f :: rest =>
    if f.isAtom then
      (splitCompound rest).map fun (before, found, after) => (f :: before, found, after)
    else some ([], f, rest)

def focusOn (s : Sequent) (side : Side) : Option Focus :=
  (splitCompound (s.members side)).map fun (before, found, after) =>
    ⟨side, before.length, found, s.withMembers side (before ++ after)⟩

/-- The first compound member, searched for in the antecedent first. -/
def focus? (s : Sequent) : Option Focus := s.focusOn .antecedent <|> s.focusOn .consequent

theorem splitCompound_eq_some {formulas before after : List Formula} {found : Formula}
    (split : splitCompound formulas = some (before, found, after)) :
    formulas = before ++ found :: after ∧ found.isAtom = false ∧
      ∀ f ∈ before, f.isAtom = true := by
  induction formulas generalizing before with
  | nil => simp [splitCompound] at split
  | cons f rest ih =>
    unfold splitCompound at split
    split at split
    · next atom =>
      obtain ⟨⟨head, middle, tail⟩, inside, same⟩ := Option.map_eq_some_iff.mp split
      simp only [Prod.mk.injEq] at same
      obtain ⟨rfl, rfl, rfl⟩ := same
      obtain ⟨parts, compound, atoms⟩ := ih inside
      exact ⟨by simp [parts], compound, by simpa [atom] using atoms⟩
    · next compound =>
      cases split
      exact ⟨rfl, by simpa using compound, by simp⟩

theorem splitCompound_eq_none_iff {formulas : List Formula} :
    splitCompound formulas = none ↔ ∀ f ∈ formulas, f.isAtom = true := by
  induction formulas with
  | nil => simp [splitCompound]
  | cons f rest ih =>
    unfold splitCompound
    split
    · next atom => simp [ih, atom]
    · next compound => simp [compound]

theorem focus?_eq_none_iff {s : Sequent} : s.focus? = none ↔ s.isAtomic = true := by
  simp [focus?, focusOn, isAtomic, formulas, members, splitCompound_eq_none_iff]

def turnstile : Text := ['|', '~']

def renderMembers (formulas : List Formula) : Text :=
  Text.join [',', ' '] (formulas.map Formula.render)

/-- No space stands where a side has no text. -/
def render (s : Sequent) : Text :=
  let left := renderMembers s.antecedent
  let right := renderMembers s.consequent
  (if left = [] then turnstile else left ++ ' ' :: turnstile) ++
    (if right = [] then [] else ' ' :: right)

end Sequent
end Turnstile
