import Turnstile.Proofs.History

/-! Names over a whole search. Every name in a visited sequent is one of the goal or was issued
before, and no name is issued that was there before. The rule that asks for a name with
nothing to avoid is safe for that reason only: the supply knows all names in use. -/
namespace Turnstile

namespace Text

theorem placeholders_subset_append (s t : Text) : placeholders t ⊆ placeholders (s ++ t) := by
  induction s with
  | nil => exact List.Subset.refl _
  | cons c s ih =>
    rw [List.cons_append, placeholders]
    split
    · exact List.Subset.trans ih (List.subset_append_right _ _)
    · exact ih

/-- The new text of a placeholder is the only one to appear, whatever was searched for. -/
theorem mem_placeholders_replacePlaceholder {old new t w : Text} (run : IsRun new)
    (member : w ∈ placeholders (replacePlaceholder old new t)) :
    w = new ∨ w ∈ placeholders t := by
  unfold replacePlaceholder at member
  fun_induction replace (placeholder old) (placeholder new) t with
  | case1 t absent => exact .inr member
  | case2 t before after found ih =>
    rw [(eq_of_cut? found).2, placeholders_append_placeholder]
    rw [placeholders_append_placeholder, placeholders_mark run, List.mem_append,
      List.mem_cons] at member
    rcases member with front | rfl | later
    · exact .inr (List.mem_append_left _ front)
    · exact .inl rfl
    · refine (ih later).imp_right fun inside => List.mem_append_right _ ?_
      exact placeholders_subset_append _ _ inside

theorem mem_names_replacePlaceholder {old new t : Text} {name : Name} (named : isName new = true)
    (member : name ∈ names (replacePlaceholder old new t)) : name = new ∨ name ∈ names t := by
  obtain ⟨inside, long⟩ := List.mem_filter.mp member
  refine (mem_placeholders_replacePlaceholder (isName_iff.mp named).2 inside).imp_right ?_
  intro old
  exact List.mem_filter.mpr ⟨old, long⟩

end Text

theorem Formula.mem_names_instantiate {f : Formula} {var : Text} {new name : Name}
    (named : Text.isName new = true) (member : name ∈ (f.instantiate var new).names) :
    name = new ∨ name ∈ f.names := by
  rw [names, instantiate_eq_mapAtoms, atoms_mapAtoms, List.flatMap_map] at member
  obtain ⟨t, inside, occurs⟩ := List.mem_flatMap.mp member
  refine (Text.mem_names_replacePlaceholder named occurs).imp_right fun old => ?_
  exact List.mem_flatMap.mpr ⟨t, inside, old⟩

namespace Sequent

theorem Derived.mem_names {s : Sequent} {witness : Option Name} {f : Formula} {name : Name}
    (derived : s.Derived witness f) (named : ∀ new ∈ witness, Text.isName new = true)
    (member : name ∈ f.names) : witness = some name ∨ name ∈ s.names := by
  cases derived with
  | member among => exact .inr (Sequent.mem_names.mpr ⟨f, among, member⟩)
  | @part g _ among child =>
    obtain ⟨t, inside, occurs⟩ := List.mem_flatMap.mp member
    refine .inr (Sequent.mem_names.mpr ⟨g, among, List.mem_flatMap.mpr ⟨t, ?_, occurs⟩⟩)
    exact Formula.mem_atoms_of_child child inside
  | @applied q var body new among chosen =>
    rcases Formula.mem_names_instantiate (named new chosen) member with rfl | old
    · exact .inl chosen
    · exact .inr (Sequent.mem_names.mpr ⟨_, among, old⟩)

end Sequent

namespace Search

/-- Every sequent has known names only, and every name issued is a new one and known from
then on. -/
def Fresh (known : Name → Prop) : List Moment → Prop
  | [] => True
  | .visited s :: rest => (∀ name ∈ s.names, known name) ∧ Fresh known rest
  | .issued name :: rest =>
    Text.isName name = true ∧ ¬known name ∧ Fresh (fun other => known other ∨ other = name) rest

theorem fresh_append {known : Name → Prop} {first second : List Moment} :
    Fresh known (first ++ second) ↔
      Fresh known first ∧ Fresh (fun name => known name ∨ .issued name ∈ first) second := by
  induction first generalizing known with
  | nil => simp [Fresh]
  | cons moment rest ih =>
    cases moment with
    | visited s => simp [Fresh, ih, and_assoc]
    | issued name => simp [Fresh, ih, and_assoc, or_assoc]

namespace Fresh

variable {known : Name → Prop} {before after : List Moment} {s : Sequent} {name : Name}

theorem visited (fresh : Fresh known (before ++ .visited s :: after)) (member : name ∈ s.names) :
    known name ∨ .issued name ∈ before :=
  (fresh_append.mp fresh).2.1 name member

theorem issued (fresh : Fresh known (before ++ .issued name :: after)) :
    Text.isName name = true ∧ ¬known name ∧ .issued name ∉ before ∧
      ∀ s, .visited s ∈ before → name ∉ s.names := by
  obtain ⟨earlier, named, new, _⟩ := fresh_append.mp fresh
  obtain ⟨unknown, unissued⟩ := not_or.mp new
  refine ⟨named, unknown, unissued, ?_⟩
  intro s passed member
  obtain ⟨first, second, rfl⟩ := List.append_of_mem passed
  rcases earlier.visited member with old | made
  · exact unknown old
  · exact unissued (List.mem_append_left _ made)

end Fresh

/-- The supply has taken exactly what was issued, and issued it fresh. -/
structure Issues (supply : NameSupply) (moments : List Moment) (later : NameSupply) : Prop where
  taken : ∀ name, later.isTaken name = true ↔
    supply.isTaken name = true ∨ .issued name ∈ moments
  fresh : Fresh (supply.isTaken · = true) moments

theorem Issues.refl (supply : NameSupply) : Issues supply [] supply :=
  ⟨fun name => by simp, trivial⟩

theorem issues_of_decomposition {s : Sequent} {supply later : NameSupply} {branch : Branch}
    (decomposed : s.Decomposition supply branch later) :
    Issues supply ((later.takenSince supply).map .issued) later := by
  rcases decomposed.supply_eq with rfl | ⟨avoid, name, issued⟩
  · simpa using Issues.refl later
  · obtain ⟨named, free, _⟩ := NameSupply.fresh_spec issued
    rw [NameSupply.takenSince_fresh issued]
    refine ⟨fun other => ?_, named, by simp [free], trivial⟩
    rw [NameSupply.isTaken_iff_of_fresh issued, List.map_singleton, List.mem_singleton,
      Moment.issued.injEq]
    exact or_comm

theorem keeps_issues :
    KeepsSupply (fun s supply => ∀ name ∈ s.names, supply.isTaken name = true) Issues where
  refl := .refl _
  trans {supply first between second later} one two := by
    have known : (fun name => supply.isTaken name = true ∨ .issued name ∈ first) =
        fun name => between.isTaken name = true := funext fun name => propext (one.taken name).symm
    refine ⟨fun name => ?_, fresh_append.mpr ⟨one.fresh, known ▸ two.fresh⟩⟩
    rw [two.taken, one.taken, List.mem_append, or_assoc]
  stable issues admitted name member := (issues.taken name).mpr (.inl (admitted name member))
  visited admitted := ⟨fun name => by simp, admitted, trivial⟩
  issued _ decomposed := issues_of_decomposition decomposed
  parents {s supply branch later} admitted decomposed leaf leafed parent inside name member := by
    have grown : ∀ name ∈ s.names, later.isTaken name = true := fun name old =>
      ((issues_of_decomposition decomposed).taken name).mpr (.inl (admitted name old))
    obtain ⟨f, among, occurs⟩ := Sequent.mem_names.mp member
    have derived := decomposed.derived leafed inside among
    -- A new name in a parent is its witness, which is a name of the sequent or was just issued.
    rcases derived.mem_names (fun new => decomposed.isName_witness leafed) occurs with new | old
    · rcases decomposed.witness leafed new with old | ⟨avoid, issued⟩
      · exact grown name old
      · exact (NameSupply.isTaken_iff_of_fresh issued).mpr (.inl rfl)
    · exact grown name old

end Search

namespace Session

/-- Over a whole search, names come from the goal or were issued before they occur, and what
is issued is a name that was neither in the goal nor in any sequent visited so far. The history
has all visits and all names that the search counts. -/
theorem names_fresh (session : Session) (clock : Clock) (goal : Sequent) :
    (∀ before s after, session.history clock goal = before ++ .visited s :: after →
      ∀ name ∈ s.names, name ∈ goal.names ∨ .issued name ∈ before) ∧
    (∀ before name after, session.history clock goal = before ++ .issued name :: after →
      Text.isName name = true ∧ name ∉ goal.names ∧ .issued name ∉ before ∧
        ∀ s, .visited s ∈ before → name ∉ s.names) ∧
    (session.prove clock goal).1.statistics.expanded =
      ((session.history clock goal).filterMap Moment.sequent?).length ∧
    (session.prove clock goal).1.issued =
      ((session.history clock goal).filterMap Moment.name?).length := by
  have issues : Search.Issues _ (session.history clock goal) _ :=
    history_of_keeps Search.keeps_issues fun name => (Search.isTaken_start goal name).mpr
  have fresh := issues.fresh
  simp only [Search.isTaken_start] at fresh
  refine ⟨?_, ?_, session.expanded_eq clock goal, session.issued_eq clock goal⟩
  · intro before s after parts name member
    exact (parts ▸ fresh).visited member
  · intro before name after parts
    exact (parts ▸ fresh).issued

/-- The sequent that needs a name has none to avoid, but `aa` is a name of the goal. -/
theorem names_fresh_nothing_to_avoid :
    let goal : Sequent := ⟨[.bin .disj (.quant .all ['x'] (.atom "<x> runs".toList))
      (.atom "<aa> runs".toList)], []⟩
    let before : List Moment :=
      [.visited goal, .visited ⟨[.quant .all ['x'] (.atom "<x> runs".toList)], []⟩]
    history {} (fun _ => 0) goal = before ++ .issued "ab".toList ::
      [.visited ⟨[.atom "<ab> runs".toList], []⟩] ∧
    Text.isName "ab".toList = true ∧ "ab".toList ∉ goal.names ∧
      .issued "ab".toList ∉ before ∧ ∀ s, .visited s ∈ before → "ab".toList ∉ s.names := by
  intro goal before
  have course : history {} (fun _ => 0) goal = before ++ .issued "ab".toList ::
      [.visited ⟨[.atom "<ab> runs".toList], []⟩] := by decide +kernel
  exact ⟨course, (names_fresh {} (fun _ => 0) goal).2.1 _ _ _ course⟩

end Session
end Turnstile
