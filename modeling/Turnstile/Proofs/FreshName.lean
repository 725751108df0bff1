import Turnstile.Proofs.Renaming

/-! Fresh names are names, and new ones. A sequent that mentions a fresh name may be
renamed so that the name becomes any other one and all names are still reached. -/
namespace Turnstile

namespace Name

theorem le_foldl_length (names : List Name) (start : Nat) :
    start ≤ names.foldl (fun bound name => max bound name.length) start ∧
      ∀ name ∈ names,
        name.length ≤ names.foldl (fun bound name => max bound name.length) start := by
  induction names generalizing start with
  | nil => simp
  | cons first names ih =>
    obtain ⟨above, each⟩ := ih (max start first.length)
    refine ⟨le_trans (le_max_left _ _) above, ?_⟩
    intro name member
    rcases List.mem_cons.mp member with rfl | later
    · exact le_trans (le_max_right _ _) above
    · exact each name later

theorem length_lt_beyond {names : List Name} {name : Name} (member : name ∈ names) :
    name.length < (beyond names).length := by
  simpa [beyond] using Nat.lt_succ_of_le ((le_foldl_length names 1).2 name member)

theorem beyond_not_mem (names : List Name) : beyond names ∉ names := by
  intro member
  exact Nat.lt_irrefl _ (length_lt_beyond member)

theorem isName_replicate {n : Nat} (long : 2 ≤ n) : Text.isName (List.replicate n 'a') = true := by
  simp [Text.isName, long, Text.isLetter]

theorem isName_beyond (names : List Name) : Text.isName (beyond names) = true :=
  isName_replicate (Nat.succ_le_succ (le_foldl_length names 1).1)

theorem isLetter_digit (n : UInt64) :
    Text.isLetter (Char.ofNat ('a'.toNat + (n % 26).toNat)) = true := by
  have digits : ∀ k : Fin 26, Text.isLetter (Char.ofNat ('a'.toNat + k.val)) = true := by decide
  have bound : (n % 26).toNat < 26 := by
    rw [UInt64.toNat_mod]
    exact Nat.mod_lt _ (by decide)
  exact digits ⟨_, bound⟩

theorem letters_spec (n : UInt64) (length : Nat) :
    (letters n length).length = length ∧ ∀ c ∈ letters n length, Text.isLetter c = true := by
  induction length generalizing n with
  | zero => simp [letters]
  | succ length ih =>
    obtain ⟨size, each⟩ := ih (n / 26)
    refine ⟨by simp [letters, size], ?_⟩
    intro c member
    rcases List.mem_append.mp member with before | last
    · exact each c before
    · obtain rfl := List.mem_singleton.mp last
      exact isLetter_digit n

theorem le_locate (n block : UInt64) (length : Nat) : length ≤ (locate n block length).2 := by
  fun_induction locate n block length with
  | case1 n block length skip ih => omega
  | case2 n block length stop => exact Nat.le_refl _

theorem isName_candidate (n : UInt64) : Text.isName (candidate n) = true := by
  obtain ⟨size, each⟩ := letters_spec (locate n (26 * 26) 2).1 (locate n (26 * 26) 2).2
  have long : 2 ≤ (candidate n).length := size.symm ▸ le_locate n (26 * 26) 2
  have lettered : ∀ c ∈ candidate n, Text.isLetter c = true := each
  simpa [Text.isName, long] using lettered

end Name

namespace NameSupply

theorem isFree_iff {supply : NameSupply} {avoid : List Name} {name : Name} :
    supply.isFree avoid name = true ↔ supply.isTaken name = false ∧ name ∉ avoid := by
  simp [isFree]

/-- A fresh name is a name, and it is neither taken nor to be avoided. -/
theorem fresh_spec {supply later : NameSupply} {avoid : List Name} {name : Name}
    (issued : supply.fresh avoid = (name, later)) :
    Text.isName name = true ∧ supply.isTaken name = false ∧ name ∉ avoid := by
  obtain ⟨rfl, rfl⟩ := Prod.mk.inj issued
  split
  · next free => exact ⟨Name.isName_candidate _, isFree_iff.mp free⟩
  · have outside := Name.beyond_not_mem (supply.taken.toList ++ avoid)
    simp only [List.mem_append, not_or, Std.TreeSet.mem_toList] at outside
    refine ⟨Name.isName_beyond _, ?_, outside.2⟩
    rw [Bool.eq_false_iff]
    intro taken
    exact outside.1 (Std.TreeSet.mem_iff_contains.mpr taken)

theorem isTaken_iff_of_fresh {supply later : NameSupply} {avoid : List Name} {name other : Name}
    (issued : supply.fresh avoid = (name, later)) :
    later.isTaken other = true ↔ other = name ∨ supply.isTaken other = true := by
  have taken := isTaken_fresh supply avoid other
  rw [issued] at taken
  rw [taken, Bool.or_eq_true, beq_iff_eq, eq_comm]

end NameSupply

namespace Renaming

/-- Sends one name to a given one and fixes those to be kept. Of the names of the
letter `a` that are longer than all of these, the shortest goes to the name left free
and each other one to the next shorter, so that every name is still reached. -/
def redirect (keep : List Name) {name target : Name} (named : Text.isName name = true)
    (aim : Text.isName target = true) : Renaming where
  apply other :=
    let first := Name.beyond (name :: keep)
    if other = name then target
    else if other = first then name
    else if other = List.replicate other.length 'a' ∧ first.length < other.length then other.tail
    else other
  isName {other} valid := by
    dsimp only
    split
    · exact aim
    · split
      · exact named
      · split
        · next long =>
          have bound := (Text.isName_iff.mp (Name.isName_beyond (name :: keep))).1
          rw [long.1, List.tail_replicate]
          exact Name.isName_replicate (by omega)
        · exact valid

variable {keep : List Name} {name target : Name} (named : Text.isName name = true)
  (aim : Text.isName target = true)

@[simp] theorem redirect_name : redirect keep named aim name = target := if_pos rfl

theorem redirect_of_mem {other : Name} (member : other ∈ keep) (different : other ≠ name) :
    redirect keep named aim other = other := by
  have short := Name.length_lt_beyond (List.mem_cons_of_mem name member)
  have distinct : other ≠ Name.beyond (name :: keep) := by
    intro same
    rw [← same] at short
    exact Nat.lt_irrefl _ short
  simp only [redirect, different, distinct, if_false]
  apply if_neg
  rintro ⟨_, long⟩
  exact Nat.lt_asymm long short

theorem redirect_surjective : (redirect keep named aim).Surjective := by
  intro image valid
  have first := Name.isName_beyond (name :: keep)
  have short : name.length < (Name.beyond (name :: keep)).length :=
    Name.length_lt_beyond List.mem_cons_self
  by_cases same : image = name
  · have distinct : Name.beyond (name :: keep) ≠ name := ne_of_apply_ne List.length short.ne'
    exact ⟨_, first, by simp [redirect, distinct, same]⟩
  · by_cases long : image = List.replicate image.length 'a' ∧
        (Name.beyond (name :: keep)).length ≤ image.length
    · have one : 'a' :: image ≠ name := ne_of_apply_ne List.length (by simp; omega)
      have two : 'a' :: image ≠ Name.beyond (name :: keep) :=
        ne_of_apply_ne List.length (by simp; omega)
      have padded : 'a' :: image = List.replicate ('a' :: image).length 'a' := by
        rw [List.length_cons, List.replicate_succ, ← long.1]
      refine ⟨'a' :: image, ?_, ?_⟩
      · rw [padded]
        exact Name.isName_replicate (by simp; omega)
      · simp only [redirect, one, two, if_false]
        exact if_pos ⟨padded, by simp; omega⟩
    · have two : image ≠ Name.beyond (name :: keep) := by
        rintro rfl
        exact long ⟨by simp [Name.beyond], le_refl _⟩
      refine ⟨image, valid, ?_⟩
      simp only [redirect, same, two, if_false]
      apply if_neg
      rintro ⟨padded, longer⟩
      exact long ⟨padded, longer.le⟩

end Renaming
end Turnstile
