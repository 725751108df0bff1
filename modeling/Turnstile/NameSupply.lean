import Std.Data.TreeSet
import Turnstile.Text.Placeholder

/-! A supply of fresh names. Candidates are enumerated by length and then in
alphabetical order, starting with `aa`. -/
namespace Turnstile

namespace Name

/-- Skips whole lengths: there are `block` candidates of the given length. The
block is a word of 64 bits and wraps around after length 13. -/
def locate (n block : UInt64) (length : Nat) : UInt64 × Nat :=
  if h : 0 < block ∧ block ≤ n then locate (n - block) (block * 26) (length + 1)
  else (n, length)
termination_by n.toNat
decreasing_by
  have positive : 0 < block.toNat := by simpa using UInt64.lt_iff_toNat_lt.mp h.1
  have bound := UInt64.le_iff_toNat_le.mp h.2
  rw [UInt64.toNat_sub_of_le _ _ h.2]
  omega

/-- The last digits of a number in base 26, written as letters. -/
def letters (n : UInt64) : Nat → Name
  | 0 => []
  | length + 1 => letters (n / 26) length ++ [Char.ofNat ('a'.toNat + (n % 26).toNat)]

def candidate (n : UInt64) : Name :=
  let (offset, length) := locate n (26 * 26) 2
  letters offset length

/-- A name longer than all of these. -/
def beyond (names : List Name) : Name :=
  List.replicate (names.foldl (fun bound name => max bound name.length) 1 + 1) 'a'

end Name

/-- The position counts the candidates that were looked at. A name is taken once
it was issued or reserved. -/
structure NameSupply where
  position : Nat := 0
  issued : Nat := 0
  taken : Std.TreeSet Name := ∅

namespace NameSupply

def isTaken (supply : NameSupply) (name : Name) : Bool := supply.taken.contains name

def isFree (supply : NameSupply) (avoid : List Name) (name : Name) : Bool :=
  !supply.isTaken name && !avoid.contains name

/-- The first position whose candidate is free, among the next `bound`. The position
after them is not looked at. -/
def probe (free : Name → Bool) : Nat → Nat → Nat
  | 0, position => position
  | bound + 1, position =>
    if free (Name.candidate (UInt64.ofNat position)) then position
    else probe free bound (position + 1)

/-- Issues the next candidate that is neither taken nor to be avoided. Among more
candidates than there are such names one is free, unless the names use up all the
candidates that words of 64 bits can number. Only then is the name no candidate. -/
def fresh (supply : NameSupply) (avoid : List Name) : Name × NameSupply :=
  let position := probe (supply.isFree avoid) (supply.taken.size + avoid.length) supply.position
  let candidate := Name.candidate (UInt64.ofNat position)
  let name :=
    if supply.isFree avoid candidate then candidate
    else Name.beyond (supply.taken.toList ++ avoid)
  (name, ⟨position + 1, supply.issued + 1, supply.taken.insert name⟩)

def reserve (supply : NameSupply) (names : List Name) : NameSupply :=
  { supply with taken := supply.taken.insertMany names }

/-- Forgets every name that was issued or reserved. -/
def reset (supply : NameSupply) : NameSupply :=
  { supply with position := 0, issued := 0, taken := ∅ }

theorem isTaken_fresh (supply : NameSupply) (avoid : List Name) (name : Name) :
    (supply.fresh avoid).2.isTaken name =
      ((supply.fresh avoid).1 == name || supply.isTaken name) := by
  rw [Bool.eq_iff_iff]
  simp [fresh, isTaken]

theorem isTaken_reserve (supply : NameSupply) (names : List Name) (name : Name) :
    (supply.reserve names).isTaken name = (supply.isTaken name || names.contains name) :=
  Std.TreeSet.contains_insertMany_list

end NameSupply
end Turnstile
