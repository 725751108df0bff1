import Turnstile.Proofs.Renaming

/-! Names in the place of variables. Looking for the text of a placeholder and scanning a text
for its placeholders are two different searches, but they agree on where a placeholder is. So
a substitution is a map of the placeholders, and its laws are laws of maps. -/
namespace Turnstile

namespace Text

theorem isRun_of_isVariable {x : Text} (single : isVariable x = true) : IsRun x := by
  obtain ⟨c, rfl, letter⟩ := isVariable_iff.mp single
  exact isRun_singleton letter

theorem ne_of_isName_of_isVariable {n x : Text} (named : isName n = true)
    (single : isVariable x = true) : n ≠ x := by
  obtain ⟨c, rfl, _⟩ := isVariable_iff.mp single
  rintro rfl
  exact absurd (isName_iff.mp named).1 (by simp)

/-- Wherever the text of a placeholder stands, it is one. -/
theorem mem_placeholders_of_infix {w t : Text} (run : IsRun w) (within : placeholder w <:+: t) :
    w ∈ placeholders t := by
  obtain ⟨before, after, rfl⟩ := within
  rw [placeholders_append_placeholder, placeholders_mark run]
  exact List.mem_append_right _ List.mem_cons_self

theorem placeholders_replacePlaceholder {old new : Text} (search : IsRun old) (run : IsRun new)
    (t : Text) : placeholders (replacePlaceholder old new t) =
      (placeholders t).map fun w => if w = old then new else w := by
  rw [replacePlaceholder_eq_mapPlaceholders search,
    placeholders_mapPlaceholders (isRun_replaced run)]

end Text

namespace Formula

/-- The variables and names in the atoms from left to right. -/
def placeholders (f : Formula) : List Text := f.atoms.flatMap Text.placeholders

/-- The operators and their variables, with nothing in the atoms. -/
def frame (f : Formula) : Formula := f.mapAtoms fun _ => []

theorem vars_eq_filter (f : Formula) : f.vars = f.placeholders.filter (·.length == 1) := by
  simp only [vars, placeholders, List.filter_flatMap]
  rfl

section Instance

variable {x : Text} {n : Name} (single : Text.isVariable x = true) (named : Text.isName n = true)

include single

/-- Nothing happens where the variable does not occur. -/
theorem instantiate_of_not_mem {f : Formula} (absent : x ∉ f.placeholders) (n : Name) :
    f.instantiate x n = f := by
  rw [instantiate_eq_mapAtoms]
  apply mapAtoms_of_fixed
  intro t member
  rw [Text.replacePlaceholder_eq_mapPlaceholders (Text.isRun_of_isVariable single)]
  apply Text.mapPlaceholders_of_fixed
  intro w inside
  rw [if_neg]
  rintro rfl
  exact absent (List.mem_flatMap.mpr ⟨t, member, inside⟩)

include named

theorem placeholders_instantiate (f : Formula) : (f.instantiate x n).placeholders =
    f.placeholders.map fun w => if w = x then n else w := by
  have texts := Text.placeholders_replacePlaceholder (Text.isRun_of_isVariable single)
    (Text.isName_iff.mp named).2
  rw [placeholders, instantiate_eq_mapAtoms, atoms_mapAtoms, List.flatMap_map, placeholders,
    List.map_flatMap]
  exact congrArg (f.atoms.flatMap ·) (funext texts)

theorem not_mem_placeholders_instantiate (f : Formula) :
    x ∉ (f.instantiate x n).placeholders := by
  rw [placeholders_instantiate single named, List.mem_map]
  rintro ⟨w, _, image⟩
  split at image
  · exact Text.ne_of_isName_of_isVariable named single image
  · next other => exact other image

theorem vars_instantiate (f : Formula) :
    (f.instantiate x n).vars = f.vars.filter (· ≠ x) := by
  have long := (Text.isName_iff.mp named).1
  have kept : ((fun w : Text => w.length == 1) ∘ fun w => if w = x then n else w) =
      fun w => decide (w ≠ x) && (w.length == 1) := by
    funext w
    by_cases same : w = x
    · have short : n.length ≠ 1 := by omega
      simp [same, short]
    · simp [same]
  rw [vars_eq_filter, vars_eq_filter, placeholders_instantiate single named, List.filter_map, kept,
    List.filter_filter]
  refine (List.map_congr_left fun w member => if_neg ?_).trans (List.map_id _)
  simpa using (Bool.and_eq_true_iff.mp (List.mem_filter.mp member).2).1

theorem instantiate_comm {y : Text} {m : Name} (other : Text.isVariable y = true)
    (second : Text.isName m = true) (distinct : y ≠ x) (f : Formula) :
    (f.instantiate x n).instantiate y m = (f.instantiate y m).instantiate x n := by
  have first := Text.isRun_of_isVariable single
  have last := Text.isRun_of_isVariable other
  simp only [instantiate_eq_mapAtoms, mapAtoms_mapAtoms]
  apply mapAtoms_congr
  intro t _
  simp only [Function.comp_apply, Text.replacePlaceholder_eq_mapPlaceholders first,
    Text.replacePlaceholder_eq_mapPlaceholders last,
    Text.mapPlaceholders_mapPlaceholders (Text.isRun_replaced (Text.isName_iff.mp named).2),
    Text.mapPlaceholders_mapPlaceholders (Text.isRun_replaced (Text.isName_iff.mp second).2)]
  apply Text.mapPlaceholders_congr
  intro w _
  have left := Text.ne_of_isName_of_isVariable named other
  have right := Text.ne_of_isName_of_isVariable second single
  by_cases one : w = x
  · simp [one, left, distinct.symm]
  · by_cases two : w = y
    · simp [two, right, distinct]
    · simp [one, two]

end Instance

theorem frame_instantiate (x : Text) (n : Name) (f : Formula) :
    (f.instantiate x n).frame = f.frame := by
  rw [frame, instantiate_eq_mapAtoms, mapAtoms_mapAtoms]
  rfl

/-- The atoms keep what stands between the placeholders of the variable. -/
theorem exists_gaps (x : Text) (n : Name) (f : Formula) :
    ∃ gaps : List (List Text),
      (∀ parts ∈ gaps, ∀ part ∈ parts, ¬Text.placeholder x <:+: part) ∧
      f.atoms = gaps.map (Text.join (Text.placeholder x)) ∧
      (f.instantiate x n).atoms = gaps.map (Text.join (Text.placeholder n)) := by
  refine ⟨f.atoms.map (Text.split (Text.placeholder x)), ?_, ?_, ?_⟩
  · intro parts among part member
    obtain ⟨t, _, rfl⟩ := List.mem_map.mp among
    exact (Text.mem_split (by simp [Text.placeholder]) member).2
  · simp [Function.comp_def, Text.join_split]
  · simp [instantiate_eq_mapAtoms, atoms_mapAtoms, Function.comp_def, Text.replacePlaceholder,
      Text.replace_eq_join]

/-- Putting a name for a variable changes the placeholders of the variable and nothing else. It
is done at once and for good, and in any order for different variables. -/
theorem instantiate_acts_on_placeholders {x : Text} {n : Name} (single : Text.isVariable x = true)
    (named : Text.isName n = true) (f : Formula) :
    ((f.instantiate x n).placeholders = f.placeholders.map fun w => if w = x then n else w) ∧
    (f.instantiate x n).vars = f.vars.filter (· ≠ x) ∧
    (∀ t ∈ (f.instantiate x n).atoms, ¬Text.placeholder x <:+: t) ∧
    (∃ gaps : List (List Text),
      (∀ parts ∈ gaps, ∀ part ∈ parts, ¬Text.placeholder x <:+: part) ∧
      f.atoms = gaps.map (Text.join (Text.placeholder x)) ∧
      (f.instantiate x n).atoms = gaps.map (Text.join (Text.placeholder n))) ∧
    (f.instantiate x n).frame = f.frame ∧
    (f.instantiate x n).binders = f.binders ∧
    (f.instantiate x n).complexity = f.complexity ∧
    (∀ m, (f.instantiate x n).instantiate x m = f.instantiate x n) ∧
    ∀ (y : Text) (m : Name), Text.isVariable y = true → Text.isName m = true → y ≠ x →
      (f.instantiate x n).instantiate y m = (f.instantiate y m).instantiate x n := by
  have absent := not_mem_placeholders_instantiate single named f
  refine ⟨placeholders_instantiate single named f, vars_instantiate single named f, ?_,
    exists_gaps x n f, frame_instantiate x n f, binders_instantiate x n f,
    complexity_instantiate x n f, fun m => instantiate_of_not_mem single absent m,
    fun y m other second distinct => instantiate_comm single named other second distinct f⟩
  intro t member within
  exact absent (List.mem_flatMap.mpr
    ⟨t, member, Text.mem_placeholders_of_infix (Text.isRun_of_isVariable single) within⟩)

/-- The variable is bound again, stands between other marks, and is the start of a name. -/
theorem instantiate_acts_on_placeholders_rebound :
    let f : Formula := .quant .ex ['x']
      (.bin .conj (.atom "<<x>> sees <y>".toList) (.atom "<x<x> <xy>".toList))
    let g : Formula := .quant .ex ['x']
      (.bin .conj (.atom "<<bo>> sees <y>".toList) (.atom "<x<bo> <xy>".toList))
    f.instantiate ['x'] "bo".toList = g ∧
      g.placeholders = ["bo".toList, ['y'], "bo".toList, "xy".toList] ∧ g.vars = [['y']] ∧
      g.instantiate ['x'] "al".toList = g ∧
      g.instantiate ['y'] "al".toList =
        (f.instantiate ['y'] "al".toList).instantiate ['x'] "bo".toList := by
  intro f g
  have image : f.instantiate ['x'] "bo".toList = g := by decide +kernel
  have ⟨placeholders, vars, _, _, _, _, _, again, commutes⟩ :=
    instantiate_acts_on_placeholders (x := ['x']) (n := "bo".toList) rfl rfl f
  rw [image] at placeholders vars again commutes
  exact ⟨image, placeholders, vars, again _, commutes ['y'] _ rfl rfl (by decide)⟩

end Formula
end Turnstile
