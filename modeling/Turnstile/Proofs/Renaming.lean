import Mathlib.Logic.Equiv.Basic
import Turnstile.Branch
import Turnstile.Proofs.Placeholder

/-! Other names for the names in texts, formulas and sequents. Variables, operators
and plain text stay as they are, so a renaming commutes with everything that
handles names without looking at their letters. -/
namespace Turnstile

/-- A map of names to names. It may do anything to texts that are no names. -/
structure Renaming where
  apply : Name → Name
  isName : ∀ {name}, Text.isName name = true → Text.isName (apply name) = true

namespace Renaming

instance : CoeFun Renaming fun _ => Name → Name := ⟨Renaming.apply⟩

def Injective (r : Renaming) : Prop :=
  ∀ {a b}, Text.isName a = true → Text.isName b = true → r a = r b → a = b

def Surjective (r : Renaming) : Prop :=
  ∀ {b}, Text.isName b = true → ∃ a, Text.isName a = true ∧ r a = b

/-- What a renaming does to the inside of a placeholder. -/
def onRun (r : Renaming) (w : Text) : Text := if 2 ≤ w.length then r w else w

theorem onRun_name (r : Renaming) {name : Name} (named : Text.isName name = true) :
    r.onRun name = r name :=
  if_pos (Text.isName_iff.mp named).1

theorem isRun_onRun (r : Renaming) (w : Text) (run : Text.IsRun w) : Text.IsRun (r.onRun w) := by
  unfold onRun
  split
  · next long => exact (Text.isName_iff.mp (r.isName (Text.isName_iff.mpr ⟨long, run⟩))).2
  · exact run

theorem long_onRun (r : Renaming) {w : Text} (run : Text.IsRun w) :
    2 ≤ (r.onRun w).length ↔ 2 ≤ w.length := by
  unfold onRun
  split
  · next long =>
    have image := (Text.isName_iff.mp (r.isName (Text.isName_iff.mpr ⟨long, run⟩))).1
    exact iff_of_true image long
  · rfl

/-- Exchanges two names. -/
def swap {a b : Name} (first : Text.isName a = true) (second : Text.isName b = true) :
    Renaming where
  apply := Equiv.swap a b
  isName {name} named := by
    by_cases left : name = a
    · simpa [left] using second
    · by_cases right : name = b
      · simpa [right] using first
      · simpa [Equiv.swap_apply_of_ne_of_ne left right] using named

/-- One renaming after another. -/
def comp (second first : Renaming) : Renaming where
  apply name := second (first name)
  isName named := second.isName (first.isName named)

@[simp] theorem comp_apply (second first : Renaming) (name : Name) :
    second.comp first name = second (first name) := rfl

theorem Injective.comp {second first : Renaming} (outer : second.Injective)
    (inner : first.Injective) : (second.comp first).Injective := by
  intro a b left right same
  exact inner left right (outer (first.isName left) (first.isName right) same)

theorem Injective.exists_leftInverse {r : Renaming} (injective : r.Injective) :
    ∃ back : Renaming, ∀ name, Text.isName name = true → back (r name) = name := by
  classical
  let back : Renaming := {
    apply := fun image => if found : ∃ name, Text.isName name = true ∧ r name = image then
      found.choose else image
    isName := by
      intro image named
      split
      · next found => exact found.choose_spec.1
      · exact named }
  refine ⟨back, fun name named => ?_⟩
  have found : ∃ other, Text.isName other = true ∧ r other = r name := ⟨name, named, rfl⟩
  have chosen : back (r name) = found.choose := dif_pos found
  rw [chosen]
  exact injective found.choose_spec.1 named found.choose_spec.2

theorem swap_injective {a b : Name} (first : Text.isName a = true)
    (second : Text.isName b = true) : (swap first second).Injective := by
  intro _ _ _ _ same
  exact (Equiv.swap a b).injective same

end Renaming

namespace Text

def rename (r : Renaming) (t : Text) : Text := mapPlaceholders r.onRun t

theorem names_rename (r : Renaming) (t : Text) : names (rename r t) = (names t).map r := by
  have long : ∀ w ∈ placeholders t, decide (2 ≤ (r.onRun w).length) = decide (2 ≤ w.length) := by
    intro w member
    exact decide_eq_decide.mpr (r.long_onRun (isRun_of_mem_placeholders member))
  have image : ∀ w ∈ (placeholders t).filter (2 ≤ ·.length), r.onRun w = r w := by
    intro w member
    exact if_pos (by simpa using (List.mem_filter.mp member).2)
  unfold names rename
  rw [placeholders_mapPlaceholders r.isRun_onRun, List.filter_map, ← List.map_congr_left image]
  exact congrArg (List.map r.onRun) (List.filter_congr long)

theorem rename_rename (second first : Renaming) (t : Text) :
    rename second (rename first t) = rename (second.comp first) t := by
  unfold rename
  rw [mapPlaceholders_mapPlaceholders first.isRun_onRun]
  apply mapPlaceholders_congr
  intro w member
  have length := first.long_onRun (isRun_of_mem_placeholders member)
  by_cases long : 2 ≤ w.length
  · have image : 2 ≤ (first w).length := by simpa [Renaming.onRun, long] using length
    simp [Renaming.onRun, long, image]
  · simp [Renaming.onRun, long]

theorem rename_congr {r other : Renaming} {t : Text}
    (same : ∀ name ∈ names t, r name = other name) : rename r t = rename other t := by
  apply mapPlaceholders_congr
  intro w member
  unfold Renaming.onRun
  split
  · next long => exact same w (by simp [names, member, long])
  · rfl

theorem rename_of_fixed (r : Renaming) {t : Text} (fixed : ∀ name ∈ names t, r name = name) :
    rename r t = t := by
  apply mapPlaceholders_of_fixed
  intro w member
  unfold Renaming.onRun
  split
  · next long => exact fixed w (by simp [names, member, long])
  · rfl

/-- A variable is shorter than every name, so the renaming does not see it. -/
theorem rename_replacePlaceholder (r : Renaming) {var : Text} {name : Name}
    (single : isVariable var = true) (named : isName name = true) (t : Text) :
    rename r (replacePlaceholder var name t) = replacePlaceholder var (r name) (rename r t) := by
  obtain ⟨x, rfl, letter⟩ := isVariable_iff.mp single
  have run := isRun_singleton letter
  unfold rename
  rw [replacePlaceholder_eq_mapPlaceholders run, replacePlaceholder_eq_mapPlaceholders run,
    mapPlaceholders_mapPlaceholders (isRun_replaced (isName_iff.mp named).2),
    mapPlaceholders_mapPlaceholders r.isRun_onRun]
  apply mapPlaceholders_congr
  intro w member
  have inside := isRun_of_mem_placeholders member
  by_cases same : w = [x]
  · have short : r.onRun [x] = [x] := if_neg (by simp)
    simp [same, short, r.onRun_name named]
  · have other : r.onRun w ≠ [x] := by
      intro image
      have length := r.long_onRun inside
      simp only [image, List.length_singleton] at length
      exact same (by rw [← image, Renaming.onRun, if_neg (by omega)])
    simp [same, other]

end Text

namespace Formula

/-- Changes the texts of the atoms and keeps the operators. -/
def mapAtoms (f : Text → Text) : Formula → Formula
  | atom text => atom (f text)
  | neg body => neg (body.mapAtoms f)
  | bin c left right => bin c (left.mapAtoms f) (right.mapAtoms f)
  | quant q var body => quant q var (body.mapAtoms f)

theorem instantiate_eq_mapAtoms (var name : Text) (f : Formula) :
    f.instantiate var name = f.mapAtoms (Text.replacePlaceholder var name) := by
  induction f <;> simp_all [instantiate, mapAtoms]

theorem atoms_mapAtoms (g : Text → Text) (f : Formula) : (f.mapAtoms g).atoms = f.atoms.map g := by
  induction f <;> simp_all [mapAtoms, atoms]

theorem mapAtoms_mapAtoms (g h : Text → Text) (f : Formula) :
    (f.mapAtoms g).mapAtoms h = f.mapAtoms (h ∘ g) := by
  induction f <;> simp_all [mapAtoms]

theorem mapAtoms_congr {g h : Text → Text} {f : Formula} (same : ∀ t ∈ f.atoms, g t = h t) :
    f.mapAtoms g = f.mapAtoms h := by
  induction f <;> simp_all [mapAtoms, atoms]

theorem mapAtoms_of_fixed {g : Text → Text} {f : Formula} (fixed : ∀ t ∈ f.atoms, g t = t) :
    f.mapAtoms g = f := by
  induction f <;> simp_all [mapAtoms, atoms]

def rename (r : Renaming) (f : Formula) : Formula := f.mapAtoms (Text.rename r)

@[simp] theorem rename_atom (r : Renaming) (text : Text) :
    (atom text).rename r = atom (Text.rename r text) := rfl

@[simp] theorem rename_neg (r : Renaming) (body : Formula) :
    (neg body).rename r = neg (body.rename r) := rfl

@[simp] theorem rename_bin (r : Renaming) (c : Connective) (left right : Formula) :
    (bin c left right).rename r = bin c (left.rename r) (right.rename r) := rfl

@[simp] theorem rename_quant (r : Renaming) (q : Quantifier) (var : Text) (body : Formula) :
    (quant q var body).rename r = quant q var (body.rename r) := rfl

@[simp] theorem kind_rename (r : Renaming) (f : Formula) : (f.rename r).kind = f.kind := by
  cases f <;> rfl

@[simp] theorem isAtom_rename (r : Renaming) (f : Formula) : (f.rename r).isAtom = f.isAtom := by
  cases f <;> rfl

theorem names_rename (r : Renaming) (f : Formula) : (f.rename r).names = f.names.map r := by
  simp only [names, rename, atoms_mapAtoms, List.flatMap_map, List.map_flatMap, Text.names_rename]

theorem isName_of_mem_names {f : Formula} {name : Name} (member : name ∈ f.names) :
    Text.isName name = true := by
  obtain ⟨text, _, inside⟩ := List.mem_flatMap.mp member
  exact Text.isName_of_mem_names inside

theorem rename_rename (second first : Renaming) (f : Formula) :
    (f.rename first).rename second = f.rename (second.comp first) := by
  have texts : Text.rename second ∘ Text.rename first = Text.rename (second.comp first) :=
    funext (Text.rename_rename second first)
  simp only [rename, mapAtoms_mapAtoms, texts]

theorem rename_congr {r other : Renaming} {f : Formula}
    (same : ∀ name ∈ f.names, r name = other name) : f.rename r = f.rename other := by
  apply mapAtoms_congr
  intro t member
  apply Text.rename_congr
  intro name inside
  exact same name (List.mem_flatMap.mpr ⟨t, member, inside⟩)

theorem rename_of_fixed (r : Renaming) {f : Formula} (fixed : ∀ name ∈ f.names, r name = name) :
    f.rename r = f := by
  apply mapAtoms_of_fixed
  intro t member
  apply Text.rename_of_fixed
  intro name inside
  exact fixed name (List.mem_flatMap.mpr ⟨t, member, inside⟩)

theorem rename_injective {r : Renaming} (injective : r.Injective) {f g : Formula}
    (same : f.rename r = g.rename r) : f = g := by
  obtain ⟨back, inverse⟩ := injective.exists_leftInverse
  have undone (h : Formula) : (h.rename r).rename back = h := by
    rw [rename_rename]
    exact rename_of_fixed _ fun name member => inverse name (isName_of_mem_names member)
  rw [← undone f, ← undone g, same]

theorem rename_instantiate (r : Renaming) {var : Text} {name : Name}
    (single : Text.isVariable var = true) (named : Text.isName name = true) (f : Formula) :
    (f.instantiate var name).rename r = (f.rename r).instantiate var (r name) := by
  have texts : Text.rename r ∘ Text.replacePlaceholder var name =
      Text.replacePlaceholder var (r name) ∘ Text.rename r :=
    funext (Text.rename_replacePlaceholder r single named)
  simp only [rename, instantiate_eq_mapAtoms, mapAtoms_mapAtoms, texts]

end Formula

/-- A map that is one to one on a list keeps the places of first occurrences. -/
theorem eraseDups_map {α β : Type} [BEq α] [LawfulBEq α] [BEq β] [LawfulBEq β] {f : α → β}
    {l : List α} (injective : ∀ a ∈ l, ∀ b ∈ l, f a = f b → a = b) :
    (l.map f).eraseDups = l.eraseDups.map f := by
  induction size : l.length using Nat.strong_induction_on generalizing l with
  | _ n ih =>
    cases l with
    | nil => rfl
    | cons a l =>
      have same : ((fun b => !b == f a) ∘ f) = fun b => !f b == f a := rfl
      have kept : l.filter (fun b => !f b == f a) = l.filter (fun b => !b == a) := by
        apply List.filter_congr
        intro b member
        have back : f b = f a → b = a := injective b (by simp [member]) a (by simp)
        by_cases equal : b = a
        · simp [equal]
        · simp [equal, mt back equal]
      have smaller : (l.filter fun b => !b == a).length < n := by
        have bound := List.length_filter_le (fun b => !b == a) l
        simp only [List.length_cons] at size
        omega
      have inside : ∀ b ∈ l.filter (fun b => !b == a), b ∈ a :: l := by
        intro b member
        exact List.mem_cons_of_mem a (List.mem_filter.mp member).1
      have rest : ((l.filter fun b => !b == a).map f).eraseDups =
          (l.filter fun b => !b == a).eraseDups.map f := by
        refine ih _ smaller ?_ rfl
        intro b first c second
        exact injective b (inside b first) c (inside c second)
      rw [List.map_cons, List.eraseDups_cons, List.eraseDups_cons, List.filter_map, same, kept,
        List.map_cons, rest]

namespace Sequent

def rename (r : Renaming) (s : Sequent) : Sequent :=
  ⟨s.antecedent.map (Formula.rename r), s.consequent.map (Formula.rename r)⟩

theorem rename_push (r : Renaming) (s : Sequent) (side : Side) (f : Formula) :
    (s.push side f).rename r = (s.rename r).push side (f.rename r) := by
  cases side <;> simp [rename, push, members, withMembers]

theorem mem_names {s : Sequent} {name : Name} :
    name ∈ s.names ↔ ∃ f ∈ s.formulas, name ∈ f.names := by
  simp [names, List.mem_eraseDups]

theorem isName_of_mem_names {s : Sequent} {name : Name} (member : name ∈ s.names) :
    Text.isName name = true := by
  obtain ⟨f, _, inside⟩ := mem_names.mp member
  exact Formula.isName_of_mem_names inside

theorem rename_congr {r other : Renaming} {s : Sequent}
    (same : ∀ name ∈ s.names, r name = other name) : s.rename r = s.rename other := by
  have each : ∀ f ∈ s.formulas, f.rename r = f.rename other := by
    intro f member
    apply Formula.rename_congr
    intro name inside
    exact same name (mem_names.mpr ⟨f, member, inside⟩)
  have left := List.map_congr_left fun f member => each f (List.mem_append_left _ member)
  have right := List.map_congr_left fun f member => each f (List.mem_append_right _ member)
  simp only [rename, left, right]

theorem rename_of_fixed (r : Renaming) {s : Sequent} (fixed : ∀ name ∈ s.names, r name = name) :
    s.rename r = s := by
  have each : ∀ f ∈ s.formulas, f.rename r = id f := by
    intro f member
    apply Formula.rename_of_fixed
    intro name inside
    exact fixed name (mem_names.mpr ⟨f, member, inside⟩)
  have left := List.map_congr_left fun f member => each f (List.mem_append_left _ member)
  have right := List.map_congr_left fun f member => each f (List.mem_append_right _ member)
  simp only [rename, left, right, List.map_id]

theorem names_rename {r : Renaming} (injective : r.Injective) (s : Sequent) :
    (s.rename r).names = s.names.map r := by
  have image : (s.rename r).formulas.flatMap Formula.names =
      (s.formulas.flatMap Formula.names).map r := by
    simp [rename, formulas, List.flatMap_map, List.map_flatMap, Formula.names_rename]
  unfold names
  rw [image]
  apply eraseDups_map
  intro a first b second same
  obtain ⟨f, _, inside⟩ := List.mem_flatMap.mp first
  obtain ⟨g, _, within⟩ := List.mem_flatMap.mp second
  exact injective (Formula.isName_of_mem_names inside) (Formula.isName_of_mem_names within) same

theorem not_mem_candidateNames {rest : Sequent} {body : Formula} {name : Name} :
    name ∉ rest.candidateNames body ↔ name ∉ rest.names ∧ name ∉ body.names := by
  simp [candidateNames, List.mem_eraseDups, and_comm]

theorem isName_of_mem_candidateNames {rest : Sequent} {body : Formula} {name : Name}
    (member : name ∈ rest.candidateNames body) : Text.isName name = true := by
  simp only [candidateNames, List.mem_eraseDups, List.mem_append] at member
  rcases member with inside | outside
  · exact Formula.isName_of_mem_names inside
  · exact isName_of_mem_names outside

theorem candidateNames_rename {r : Renaming} (injective : r.Injective) (rest : Sequent)
    (body : Formula) :
    (rest.rename r).candidateNames (body.rename r) = (rest.candidateNames body).map r := by
  unfold candidateNames
  rw [Formula.names_rename, names_rename injective, ← List.map_append]
  apply eraseDups_map
  intro a first b second same
  have named : ∀ name ∈ body.names ++ rest.names, Text.isName name = true := by
    intro name member
    exact isName_of_mem_candidateNames (List.mem_eraseDups.mpr member)
  exact injective (named a first) (named b second) same

theorem isAtomic_rename (r : Renaming) (s : Sequent) : (s.rename r).isAtomic = s.isAtomic := by
  simp [isAtomic, rename, formulas, List.all_map, Function.comp_def]

theorem isInitial_rename (r : Renaming) {s : Sequent} (initial : s.isInitial = true) :
    (s.rename r).isInitial = true := by
  simp only [isInitial, List.any_eq_true, List.contains_iff_mem] at initial ⊢
  obtain ⟨f, left, right⟩ := initial
  exact ⟨f.rename r, List.mem_map_of_mem left, List.mem_map_of_mem right⟩

theorem isInitial_of_rename {r : Renaming} (injective : r.Injective) {s : Sequent}
    (initial : (s.rename r).isInitial = true) : s.isInitial = true := by
  simp only [isInitial, List.any_eq_true, List.contains_iff_mem, rename, List.mem_map] at initial ⊢
  obtain ⟨_, ⟨f, left, rfl⟩, g, right, same⟩ := initial
  exact ⟨f, left, Formula.rename_injective injective same ▸ right⟩

end Sequent
end Turnstile
