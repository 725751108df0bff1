import Turnstile.Proofs.Instance
import Turnstile.Sequent.Reader

/-! The text of a sequent. Commas and a turnstile separate its members, so it reads as the
same sequent if its members read as themselves and no separator occurs in an atom. Both
go over from a formula to its parts and its instances. -/
namespace Turnstile

/-- A mark that is foreign to everything that formulas are written with. -/
structure Text.Separator (mark : Text) : Prop where
  word : IsWord mark
  foreign : ∀ c ∈ mark, isLetter c = false ∧ c ∉ ['(', ')', '<', '>']
  start : ∀ operator : Operator, mark.head? ≠ some operator.symbol

namespace Text.Separator

variable {mark : Text} (separator : Separator mark)

include separator

theorem not_mem {c : Char} (other : c ∈ [' ', '(', ')', '<', '>']) : c ∉ mark := by
  intro member
  rcases List.mem_cons.mp other with rfl | paren
  · exact absurd (separator.word.solid _ member) (by decide)
  · exact (separator.foreign c member).2 paren

theorem not_infix_nil : ¬mark <:+: [] := by
  rw [List.infix_nil]
  exact separator.word.proper

theorem not_infix_symbol (operator : Operator) : ¬mark <:+: [operator.symbol] := by
  intro within
  rcases List.infix_cons_iff.mp within with starts | later
  · obtain ⟨c, rest, rfl⟩ := List.exists_cons_of_ne_nil separator.word.proper
    obtain ⟨rfl, _⟩ := List.cons_prefix_cons.mp starts
    exact separator.start operator rfl
  · exact separator.not_infix_nil later

theorem not_infix_run {w : Text} (run : IsRun w) : ¬mark <:+: w := by
  intro within
  obtain ⟨c, rest, rfl⟩ := List.exists_cons_of_ne_nil separator.word.proper
  have letter := run.letters c (within.subset List.mem_cons_self)
  simp [(separator.foreign c List.mem_cons_self).1] at letter

/-- Letters between the marks of a placeholder bring no separator about. -/
theorem infix_of_mapPlaceholders {g : Text → Text} (runs : ∀ w, IsRun w → IsRun (g w)) {t : Text}
    (within : mark <:+: mapPlaceholders g t) : mark <:+: t := by
  have front {part t : Text} (other : ∀ c ∈ part, c ≠ '<') (starts : part <+: mapPlaceholders g t) :
      part <+: t := by
    induction part generalizing t with
    | nil => exact List.nil_prefix
    | cons c part ih =>
      obtain ⟨rest, image⟩ := starts
      obtain ⟨tail, rfl, same⟩ := exists_cons_of_mapPlaceholders (other c (by simp)) image.symm
      refine List.cons_prefix_cons.mpr ⟨rfl, ih (fun d member => other d (by simp [member])) ?_⟩
      exact ⟨rest, same.symm⟩
  induction t using scan with
  | nil => simpa using within
  | plain c rest plain ih =>
    rw [mapPlaceholders_plain g plain, List.infix_cons_iff] at within
    rcases within with starts | later
    · refine (front (fun d member => ?_) (mapPlaceholders_plain g plain ▸ starts)).isInfix
      exact ne_of_mem_of_not_mem member (separator.not_mem (by decide))
    · exact (ih later).trans (List.suffix_cons c rest).isInfix
  | mark w rest run ih =>
    rw [mapPlaceholders_mark g run, placeholder_append, ← List.cons_append] at within
    rcases infix_append_cons (separator.not_mem (by decide)) within with inside | later
    · rcases infix_append_cons (s := []) (separator.not_mem (by decide)) inside with none | letters
      · exact absurd none separator.not_infix_nil
      · exact absurd letters (separator.not_infix_run (runs w run))
    · exact (ih later).trans (List.suffix_append _ _).isInfix

end Text.Separator

namespace Formula

variable {mark : Text}

/-- A separator in the text of a formula is in one of its atoms. -/
theorem infix_of_render (separator : Text.Separator mark) {f : Formula} (bound : f.WellBound)
    (within : mark <:+: f.render) : ∃ t ∈ f.atoms, mark <:+: t := by
  have scope (front : Text) {body : Text} (before : ¬mark <:+: front)
      (within : mark <:+: front ++ '(' :: (body ++ [')'])) : mark <:+: body := by
    have opens := Text.infix_append_cons (separator.not_mem (by decide)) within
    have closes := Text.infix_append_cons (separator.not_mem (by decide)) (opens.resolve_left before)
    exact closes.resolve_right separator.not_infix_nil
  induction f with
  | atom t => exact ⟨t, by simp [atoms], within⟩
  | neg body ih => exact ih bound (scope ['~'] (separator.not_infix_symbol .neg) within)
  | bin c left right first second =>
    obtain ⟨leftBound, rightBound⟩ := wellBound_bin.mp bound
    have parts : (bin c left right).render =
        [] ++ '(' :: (left.render ++ ' ' :: ([c.symbol] ++ ' ' :: right.render) ++ [')']) := by
      simp [render]
    rw [parts] at within
    have space := separator.not_mem (c := ' ') (by decide)
    have body := scope [] separator.not_infix_nil within
    rcases Text.infix_append_cons space body with inside | later
    · obtain ⟨t, member, occurs⟩ := first leftBound inside
      exact ⟨t, by simp [atoms, member], occurs⟩
    · have inside := (Text.infix_append_cons space later).resolve_left
        (separator.not_infix_symbol (.bin c))
      obtain ⟨t, member, occurs⟩ := second rightBound inside
      exact ⟨t, by simp [atoms, member], occurs⟩
  | quant q var body ih =>
    obtain ⟨single, bodyBound⟩ := wellBound_quant.mp bound
    obtain ⟨x, rfl, letter⟩ := Text.isVariable_iff.mp single
    refine ih bodyBound (scope ([q.symbol] ++ '<' :: ([x] ++ '>' :: [])) ?_ within)
    intro front
    have later := (Text.infix_append_cons (separator.not_mem (by decide)) front).resolve_left
      (separator.not_infix_symbol (.quant q))
    rcases Text.infix_append_cons (separator.not_mem (by decide)) later with letters | none
    · exact separator.not_infix_run (Text.isRun_singleton letter) letters
    · exact separator.not_infix_nil none

/-- What has no blank and occurs in an atom occurs in the text that was read. -/
theorem Parsed.infix_of_atom {t : Text} {f : Formula} (parsed : Parsed t f)
    (word : Text.IsWord mark) {a : Text} (member : a ∈ f.atoms) (within : mark <:+: a) :
    mark <:+: t := by
  have lift {t u : Text} {layer : Layer} (read : Layer.read t = .ok layer)
      (operand : u ∈ layer.operands) (inside : mark <:+: u) : mark <:+: t := by
    have reading := (Layer.read_eq_ok_iff.mp read).2
    exact (reading.infix_of_operand operand word inside).trans (Text.strip_spec t).2.2
  induction parsed with
  | @atom t u layer =>
    obtain rfl := List.mem_singleton.mp member
    rw [(parse_of_layer layer).1] at within
    exact within.trans (Text.strip_spec t).2.2
  | neg layer _ ih => exact lift layer List.mem_cons_self (ih member)
  | bin layer _ _ left right =>
    rcases List.mem_append.mp member with first | second
    · exact lift layer List.mem_cons_self (left first)
    · exact lift layer (List.mem_cons_of_mem _ List.mem_cons_self) (right second)
  | quant layer _ ih => exact lift layer List.mem_cons_self (ih member)

end Formula

namespace Sequent

/-- What stands between the sides and between the members of a side. -/
def separators : List Text := [[','], turnstile]

theorem separator_of_mem {mark : Text} (member : mark ∈ separators) : Text.Separator mark := by
  have start (operator : Operator) : operator.symbol ≠ ',' ∧ operator.symbol ≠ '|' := by
    rcases operator with _ | (_ | _ | _) | (_ | _) <;> decide
  simp only [separators, List.mem_cons, List.not_mem_nil, or_false] at member
  rcases member with rfl | rfl
  · refine ⟨⟨by decide, Text.solid_of_all rfl⟩, ?_, fun operator same => ?_⟩
    · intro c inside
      obtain rfl := List.mem_singleton.mp inside
      decide
    · exact (start operator).1 (Option.some.inj same).symm
  · refine ⟨⟨by decide, Text.solid_of_all rfl⟩, ?_, fun operator same => ?_⟩
    · intro c inside
      rcases List.mem_pair.mp inside with rfl | rfl <;> decide
    · exact (start operator).2 (Option.some.inj same).symm

end Sequent

namespace Formula

/-- A formula that can be read back as a member of a sequent. -/
structure Listable (f : Formula) : Prop where
  legible : f.Legible
  unmarked : ∀ mark ∈ Sequent.separators, ∀ t ∈ f.atoms, ¬mark <:+: t

theorem Legible.wellBound {f : Formula} (legible : f.Legible) : f.WellBound := by
  cases f with
  | atom t => simp [WellBound, binders]
  | neg | bin | quant => exact legible.bound

theorem Legible.exists_solid {f : Formula} (legible : f.Legible) :
    ∃ c ∈ f.render, Text.isBlank c = false := by
  by_contra none
  have blank : Text.trim f.render = Text.trim [] :=
    Text.trim_eq_nil_iff.mpr fun c member => by simpa using fun solid => none ⟨c, member, solid⟩
  exact strip_ne_nil_of_parse legible.parse_render
    ((Text.strip_congr blank).trans (Text.strip_of_none rfl))

namespace Listable

variable {f : Formula}

theorem of_parse {t : Text} (balanced : Text.Balanced t)
    (unmarked : ∀ mark ∈ Sequent.separators, ¬mark <:+: t) (success : parse t = .ok f) :
    f.Listable := by
  refine ⟨legible_of_parse balanced success, ?_⟩
  intro mark separates a member within
  exact unmarked mark separates ((parse_eq_ok_iff.mp success).infix_of_atom
    (Sequent.separator_of_mem separates).word member within)

theorem not_infix_render (listable : f.Listable) {mark : Text}
    (separates : mark ∈ Sequent.separators) : ¬mark <:+: f.render := by
  intro within
  obtain ⟨t, member, inside⟩ := infix_of_render (Sequent.separator_of_mem separates)
    listable.legible.wellBound within
  exact listable.unmarked mark separates t member inside

theorem child (listable : f.Listable) {g : Formula} (member : g ∈ f.children) : g.Listable := by
  refine ⟨?_, fun mark separates t inside =>
    listable.unmarked mark separates t (mem_atoms_of_child member inside)⟩
  cases f with
  | atom => simp [children] at member
  | neg body =>
    obtain rfl := List.mem_singleton.mp member
    exact (canonical_neg.mp listable.legible).legible
  | bin c left right =>
    obtain ⟨first, second⟩ := canonical_bin.mp listable.legible
    simp only [children, List.mem_cons, List.not_mem_nil, or_false] at member
    rcases member with rfl | rfl
    · exact first.legible
    · exact second.legible
  | quant q var body =>
    obtain rfl := List.mem_singleton.mp member
    exact (canonical_quant.mp listable.legible).2.legible

theorem instantiate {q : Quantifier} {var : Text} {body : Formula} {name : Name}
    (listable : (quant q var body).Listable) (named : Text.isName name = true) :
    (body.instantiate var name).Listable := by
  obtain ⟨single, inside⟩ := canonical_quant.mp listable.legible
  refine ⟨(inside.instantiate single named).legible, ?_⟩
  intro mark separates t member within
  obtain ⟨x, rfl, letter⟩ := Text.isVariable_iff.mp single
  rw [instantiate_eq_mapAtoms, atoms_mapAtoms] at member
  obtain ⟨u, among, rfl⟩ := List.mem_map.mp member
  rw [Text.replacePlaceholder_eq_mapPlaceholders (Text.isRun_singleton letter)] at within
  refine listable.unmarked mark separates u among
    ((Sequent.separator_of_mem separates).infix_of_mapPlaceholders ?_ within)
  exact Text.isRun_replaced (Text.isName_iff.mp named).2

end Listable
end Formula

theorem mapM_eq_ok_iff {ε α β : Type} {g : α → Except ε β} {l : List α} {bs : List β} :
    l.mapM g = .ok bs ↔ l.map g = bs.map .ok := by
  induction l generalizing bs with
  | nil => simp [pure, Except.pure, eq_comm]
  | cons a l ih =>
    rw [List.mapM_cons, bind_eq_ok_iff]
    constructor
    · rintro ⟨b, first, later⟩
      obtain ⟨rest, others, last⟩ := bind_eq_ok_iff.mp later
      cases last
      rw [List.map_cons, first, ih.mp others, List.map_cons]
    · intro each
      obtain ⟨b, rest, rfl, first, others⟩ := List.map_eq_cons_iff.mp each.symm
      exact ⟨b, first.symm, bind_eq_ok_iff.mpr ⟨rest, ih.mpr others.symm, rfl⟩⟩

namespace Sequent

variable {s : Sequent} {formulas : List Formula}

theorem parseMembers_eq_ok_iff {side : Text} :
    parseMembers side = .ok formulas ↔
      if Text.trim side = [] then formulas = []
      else (Text.split [','] side).map Formula.parse = formulas.map .ok := by
  unfold parseMembers
  split
  · simp [eq_comm]
  · exact mapM_eq_ok_iff

theorem parse_eq_ok_iff {input : Text} :
    parse input = .ok s ↔ ∃ left right, Text.split turnstile input = [left, right] ∧
      parseMembers left = .ok s.antecedent ∧ parseMembers right = .ok s.consequent := by
  unfold parse
  split
  · next left right sides =>
    simp only [bind_eq_ok_iff, mapError_eq_ok_iff]
    constructor
    · rintro ⟨antecedent, first, consequent, second, last⟩
      cases last
      exact ⟨left, right, sides, first, second⟩
    · rintro ⟨_, _, same, first, second⟩
      cases sides.symm.trans same
      exact ⟨_, first, _, second, rfl⟩
  · next other =>
    constructor
    · intro impossible
      cases impossible
    · rintro ⟨left, right, sides, _⟩
      exact absurd sides (other left right)

/-- Every member can be read back. -/
def Listable (s : Sequent) : Prop := ∀ f ∈ s.formulas, f.Listable

/-- Members that are read from matched parentheses can be read back. -/
theorem listable_of_parse {input : Text} (success : parse input = .ok s)
    (balanced : ∀ side ∈ Text.split turnstile input, ∀ piece ∈ Text.split [','] side,
      Text.Balanced piece) : s.Listable := by
  obtain ⟨left, right, sides, first, second⟩ := parse_eq_ok_iff.mp success
  have each {side : Text} (member : side ∈ Text.split turnstile input) {formulas : List Formula}
      (read : parseMembers side = .ok formulas) : ∀ f ∈ formulas, f.Listable := by
    intro f among
    rw [parseMembers_eq_ok_iff] at read
    split at read
    · simp [read] at among
    · obtain ⟨piece, inside, own⟩ := List.mem_map.mp (read ▸ List.mem_map_of_mem among)
      refine .of_parse (balanced side member piece inside) ?_ own
      have unsided := (Text.mem_split (by decide) member).2
      obtain ⟨within, unlisted⟩ := Text.mem_split (by decide) inside
      simp only [separators, List.mem_cons, List.not_mem_nil, or_false, forall_eq_or_imp, forall_eq]
      exact ⟨unlisted, fun occurs => unsided (occurs.trans within)⟩
  intro f member
  rcases List.mem_append.mp member with among | among
  · exact each (by simp [sides]) first f among
  · exact each (by simp [sides]) second f among

@[simp] theorem renderMembers_singleton (f : Formula) : renderMembers [f] = f.render := by
  simp [renderMembers, Text.join]

theorem renderMembers_cons (f : Formula) {rest : List Formula} (more : rest ≠ []) :
    renderMembers (f :: rest) = f.render ++ ',' :: ' ' :: renderMembers rest := by
  have others : rest.map Formula.render ≠ [] := List.map_eq_nil_iff.not.mpr more
  simp [renderMembers, Text.join, List.intercalate_cons_of_ne_nil others]

/-- The members of a side come apart again, whatever blanks stand around them. -/
theorem map_parse_split (listable : ∀ f ∈ formulas, f.Listable) (some : formulas ≠ [])
    {before after : Text} (left : ∀ c ∈ before, Text.isBlank c = true)
    (right : ∀ c ∈ after, Text.isBlank c = true) :
    (Text.split [','] (before ++ renderMembers formulas ++ after)).map Formula.parse =
      formulas.map .ok := by
  have plain {t : Text} (blanks : ∀ c ∈ t, Text.isBlank c = true) : ',' ∉ t :=
    fun member => absurd (blanks _ member) (by decide)
  induction formulas generalizing before with
  | nil => exact absurd rfl some
  | cons f rest ih =>
    have own := listable f List.mem_cons_self
    have unmarked : ',' ∉ f.render := by
      rw [← List.singleton_infix_iff]
      exact own.not_infix_render (by decide)
    have padded {blanks : Text} (blank : ∀ c ∈ blanks, Text.isBlank c = true) :
        Formula.parse (before ++ f.render ++ blanks) = .ok f :=
      (Formula.parse_congr (Text.strip_blanks left blank _)).trans own.legible.parse_render
    by_cases last : rest = []
    · have whole : ¬[','] <:+: before ++ f.render ++ after := by
        simp [List.singleton_infix_iff, plain left, unmarked, plain right]
      rw [last, renderMembers_singleton, Text.split_of_not_infix (by decide) whole,
        List.map_singleton, List.map_singleton, padded right]
    · have first : ¬[','] <:+: before ++ f.render ++ [','].dropLast := by
        simp [List.singleton_infix_iff, plain left, unmarked]
      have parts : before ++ renderMembers (f :: rest) ++ after =
          before ++ f.render ++ [','] ++ ([' '] ++ renderMembers rest ++ after) := by
        simp [renderMembers_cons f last]
      have alone : Formula.parse (before ++ f.render ++ []) = .ok f := padded (by simp)
      rw [List.append_nil] at alone
      rw [parts, Text.split_of_some (Text.cut?_append (by decide) first _), List.map_cons, alone,
        ih (fun g member => listable g (List.mem_cons_of_mem _ member)) last
          (List.all_eq_true.mp rfl), List.map_cons]

theorem parseMembers_render (listable : ∀ f ∈ formulas, f.Listable)
    {before after : Text} (left : ∀ c ∈ before, Text.isBlank c = true)
    (right : ∀ c ∈ after, Text.isBlank c = true) :
    parseMembers (before ++ renderMembers formulas ++ after) = .ok formulas := by
  rw [parseMembers_eq_ok_iff, Text.trim_blanks left right]
  split
  · next blank =>
    cases formulas with
    | nil => rfl
    | cons f rest =>
      obtain ⟨c, member, solid⟩ := (listable f List.mem_cons_self).legible.exists_solid
      have among : c ∈ renderMembers (f :: rest) := by
        by_cases last : rest = []
        · simpa [last] using member
        · simp [renderMembers_cons f last, member]
      simp [Text.trim_eq_nil_iff.mp blank c among] at solid
  · next solid =>
    refine map_parse_split listable ?_ left right
    rintro rfl
    exact solid rfl

theorem not_infix_renderMembers (listable : ∀ f ∈ formulas, f.Listable) :
    ¬turnstile <:+: renderMembers formulas := by
  induction formulas with
  | nil => decide
  | cons f rest ih =>
    have own : ¬turnstile <:+: f.render :=
      (listable f List.mem_cons_self).not_infix_render (by decide)
    by_cases last : rest = []
    · simpa [last] using own
    · rw [renderMembers_cons f last]
      intro within
      rcases Text.infix_append_cons (by decide) within with inside | later
      · exact own inside
      · rcases Text.infix_append_cons (s := []) (by decide) later with none | inside
        · exact absurd none (by decide)
        · exact ih (fun g member => listable g (List.mem_cons_of_mem _ member)) inside

/-- The blank between a side and the turnstile. -/
def padding (side : Text) : Text := if side = [] then [] else [' ']

theorem isBlank_of_mem_padding {side : Text} : ∀ c ∈ padding side, Text.isBlank c = true := by
  unfold padding
  split <;> exact List.all_eq_true.mp rfl

theorem render_eq (s : Sequent) :
    s.render = renderMembers s.antecedent ++ padding (renderMembers s.antecedent) ++ turnstile ++
      (padding (renderMembers s.consequent) ++ renderMembers s.consequent) := by
  unfold render padding
  dsimp only
  split <;> split <;> simp_all

section Sides

variable {members : List Formula} (listable : ∀ f ∈ members, f.Listable)
include listable

/-- The sign does not start early, on a tail of what stands before it. -/
theorem not_infix_before_turnstile : ¬turnstile <:+: renderMembers members ++
    padding (renderMembers members) ++ turnstile.dropLast := by
  unfold padding
  split
  · next none =>
    rw [none]
    decide
  · rw [List.append_assoc]
    intro within
    rcases Text.infix_append_cons (by decide) within with inside | later
    · exact not_infix_renderMembers listable inside
    · exact absurd later (by decide)

theorem not_infix_after_turnstile : ¬turnstile <:+: padding (renderMembers members) ++
    renderMembers members := by
  unfold padding
  split
  · exact not_infix_renderMembers listable
  · intro within
    rcases Text.infix_append_cons (s := []) (by decide) within with none | inside
    · exact absurd none (by decide)
    · exact not_infix_renderMembers listable inside

end Sides

theorem split_render (listable : s.Listable) : Text.split turnstile s.render =
    [renderMembers s.antecedent ++ padding (renderMembers s.antecedent),
      padding (renderMembers s.consequent) ++ renderMembers s.consequent] := by
  have before := not_infix_before_turnstile fun f member =>
    listable f (List.mem_append_left s.consequent member)
  have after := not_infix_after_turnstile fun f member =>
    listable f (List.mem_append_right s.antecedent member)
  rw [render_eq, Text.split_of_some (Text.cut?_append (by decide) before _),
    Text.split_of_not_infix (by decide) after]

theorem parse_render (listable : s.Listable) : parse s.render = .ok s := by
  have left : parseMembers ([] ++ renderMembers s.antecedent ++
      padding (renderMembers s.antecedent)) = .ok s.antecedent :=
    parseMembers_render (fun f member => listable f (List.mem_append_left _ member))
      (by simp) isBlank_of_mem_padding
  have right : parseMembers (padding (renderMembers s.consequent) ++
      renderMembers s.consequent ++ []) = .ok s.consequent :=
    parseMembers_render (fun f member => listable f (List.mem_append_right _ member))
      isBlank_of_mem_padding (by simp)
  rw [List.nil_append] at left
  rw [List.append_nil] at right
  exact parse_eq_ok_iff.mpr ⟨_, _, split_render listable, left, right⟩

end Sequent
end Turnstile
