import Turnstile.Proofs.Spacing
import Turnstile.Proofs.Splitting
import Turnstile.Text.Placeholder

/-! Texts as sequences of plain characters and placeholders. Every function on the
placeholders of a text is determined by what it does at a plain character and at
a placeholder, so no proof after this module looks at the marks again. -/
namespace Turnstile.Text

/-- What may stand between the marks of a placeholder. -/
structure IsRun (w : Text) : Prop where
  proper : w ≠ []
  letters : ∀ c ∈ w, isLetter c = true

theorem isName_iff {t : Text} : isName t = true ↔ 2 ≤ t.length ∧ IsRun t := by
  simp only [isName, Bool.and_eq_true, decide_eq_true_eq, List.all_eq_true]
  constructor
  · rintro ⟨long, letters⟩
    exact ⟨long, by rintro rfl; simp at long, letters⟩
  · rintro ⟨long, run⟩
    exact ⟨long, run.letters⟩

theorem isVariable_iff {t : Text} : isVariable t = true ↔ ∃ x, t = [x] ∧ isLetter x = true := by
  simp only [isVariable, Bool.and_eq_true, beq_iff_eq, List.length_eq_one_iff, List.all_eq_true]
  constructor
  · rintro ⟨⟨x, rfl⟩, letters⟩
    exact ⟨x, rfl, letters x (by simp)⟩
  · rintro ⟨x, rfl, letter⟩
    exact ⟨⟨x, rfl⟩, by simpa using letter⟩

theorem isRun_singleton {x : Char} (letter : isLetter x = true) : IsRun [x] :=
  ⟨by simp, by simpa using letter⟩

theorem takeWhile_letters {w : Text} (letters : ∀ c ∈ w, isLetter c = true) (rest : Text)
    (stop : rest.head?.all (!isLetter ·) = true) :
    (w ++ rest).takeWhile isLetter = w ∧ (w ++ rest).dropWhile isLetter = rest := by
  rw [List.takeWhile_append_of_pos letters, List.dropWhile_append_of_pos letters]
  cases rest with
  | nil => simp
  | cons c rest =>
    have other : isLetter c = false := by simpa using stop
    simp [other]

theorem closedRun?_eq_some_iff {t w : Text} :
    closedRun? t = some w ↔ IsRun w ∧ ∃ rest, t = w ++ '>' :: rest := by
  unfold closedRun?
  simp only [Option.ite_none_right_eq_some, Bool.and_eq_true, beq_iff_eq, Option.some.injEq]
  constructor
  · rintro ⟨⟨first, close⟩, rfl⟩
    refine ⟨⟨?_, ?_⟩, ?_⟩
    · cases t with
      | nil => simp at first
      | cons c t =>
        have letter : isLetter c = true := by simpa using first
        simp [letter]
    · intro c member
      exact List.mem_takeWhile_imp member
    · obtain ⟨rest, tail⟩ := List.head?_eq_some_iff.mp close
      exact ⟨rest, by rw [← tail, List.takeWhile_append_dropWhile]⟩
  · rintro ⟨run, rest, rfl⟩
    obtain ⟨taken, dropped⟩ := takeWhile_letters run.letters ('>' :: rest) rfl
    refine ⟨⟨?_, by rw [dropped]; rfl⟩, taken⟩
    obtain ⟨c, w, rfl⟩ := List.exists_cons_of_ne_nil run.proper
    simpa using run.letters c (by simp)

/-- What can be in no run ends the search for one. -/
theorem closedRun?_append_cons {c : Char} (other : isLetter c = false) (unclosed : c ≠ '>')
    (s t : Text) : closedRun? (s ++ c :: t) = closedRun? s := by
  refine Option.ext fun w => ?_
  rw [closedRun?_eq_some_iff, closedRun?_eq_some_iff]
  constructor
  · rintro ⟨run, rest, parts⟩
    have absent : c ∉ w ++ ['>'] := by
      rw [List.mem_append, List.mem_singleton, not_or]
      exact ⟨fun member => by simp [run.letters c member] at other, unclosed⟩
    obtain ⟨rest, same⟩ := prefix_append_cons absent ⟨rest, by simpa using parts.symm⟩
    exact ⟨run, rest, by simpa using same.symm⟩
  · rintro ⟨run, rest, rfl⟩
    exact ⟨run, rest ++ c :: t, by simp⟩

/-- The placeholder in front of a text, without its marks. -/
def leadingRun? : Text → Option Text
  | [] => none
  | c :: rest => if c == '<' then closedRun? rest else none

theorem placeholder_append (w rest : Text) :
    placeholder w ++ rest = '<' :: (w ++ '>' :: rest) := by
  simp [placeholder]

theorem leadingRun?_eq_some_iff {t w : Text} :
    leadingRun? t = some w ↔ IsRun w ∧ ∃ rest, t = placeholder w ++ rest := by
  cases t with
  | nil => simp [leadingRun?, placeholder]
  | cons c t =>
    simp only [leadingRun?, beq_iff_eq, Option.ite_none_right_eq_some, closedRun?_eq_some_iff,
      placeholder, List.cons_append, List.cons.injEq, List.append_assoc, List.nil_append]
    constructor
    · rintro ⟨rfl, run, rest, rfl⟩
      exact ⟨run, rest, rfl, rfl⟩
    · rintro ⟨run, rest, rfl, rfl⟩
      exact ⟨rfl, run, rest, rfl⟩

/-- Follows a text from left to right: a character that opens no placeholder, or
a whole placeholder. -/
theorem scan {motive : Text → Prop} (nil : motive [])
    (plain : ∀ c rest, leadingRun? (c :: rest) = none → motive rest → motive (c :: rest))
    (mark : ∀ w rest, IsRun w → motive rest → motive (placeholder w ++ rest))
    (t : Text) : motive t := by
  induction bound : t.length using Nat.strong_induction_on generalizing t with
  | _ n ih =>
    subst bound
    cases t with
    | nil => exact nil
    | cons c t =>
      cases lead : leadingRun? (c :: t) with
      | none => exact plain c t lead (ih t.length (by simp) t rfl)
      | some w =>
        obtain ⟨run, rest, same⟩ := leadingRun?_eq_some_iff.mp lead
        rw [same]
        refine mark w rest run (ih rest.length ?_ rest rfl)
        simp only [same, placeholder, List.length_cons, List.length_append]
        omega

theorem placeholders_plain {c : Char} {rest : Text} (plain : leadingRun? (c :: rest) = none) :
    placeholders (c :: rest) = placeholders rest := by
  simp only [placeholders]
  split
  · next opens =>
    simp only [leadingRun?, opens, if_true] at plain
    simp [plain]
  · rfl

theorem placeholders_append {w : Text} (closed : ∀ c ∈ w, c ≠ '<') (rest : Text) :
    placeholders (w ++ rest) = placeholders rest := by
  induction w with
  | nil => rfl
  | cons c w ih =>
    have other : c ≠ '<' := closed c (by simp)
    simp [placeholders, other, ih fun d member => closed d (by simp [member])]

theorem IsRun.ne_open {w : Text} (run : IsRun w) : ∀ c ∈ w, c ≠ '<' := by
  rintro c member rfl
  exact absurd (run.letters _ member) (by decide)

theorem placeholders_mark {w : Text} (run : IsRun w) (rest : Text) :
    placeholders (placeholder w ++ rest) = w :: placeholders rest := by
  have lead : closedRun? (w ++ '>' :: rest) = some w :=
    closedRun?_eq_some_iff.mpr ⟨run, rest, rfl⟩
  have inside : placeholders (w ++ '>' :: rest) = placeholders rest := by
    rw [placeholders_append run.ne_open]
    simp [placeholders]
  simp [placeholder, placeholders, lead, inside]

theorem placeholders_append_cons {c : Char} (other : isLetter c = false) (unclosed : c ≠ '>')
    (s t : Text) : placeholders (s ++ c :: t) = placeholders s ++ placeholders (c :: t) := by
  induction s with
  | nil => rfl
  | cons a s ih =>
    rw [List.cons_append, placeholders, placeholders, closedRun?_append_cons other unclosed, ih]
    split <;> simp

/-- Where a placeholder stands the text may be cut. -/
theorem placeholders_append_placeholder (s w rest : Text) :
    placeholders (s ++ placeholder w ++ rest) =
      placeholders s ++ placeholders (placeholder w ++ rest) := by
  rw [List.append_assoc, placeholder_append]
  exact placeholders_append_cons (by decide) (by decide) s _

theorem isRun_of_mem_placeholders {t w : Text} (member : w ∈ placeholders t) : IsRun w := by
  induction t using scan with
  | nil => simp [placeholders] at member
  | plain c rest plain ih => exact ih (placeholders_plain plain ▸ member)
  | mark first rest run ih =>
    rw [placeholders_mark run] at member
    rcases List.mem_cons.mp member with rfl | later
    · exact run
    · exact ih later

theorem isName_of_mem_names {t : Text} {name : Name} (member : name ∈ names t) :
    isName name = true := by
  simp only [names, List.mem_filter, decide_eq_true_eq] at member
  exact isName_iff.mpr ⟨member.2, isRun_of_mem_placeholders member.1⟩

/-- Changes what stands in the placeholders of a text and nothing else. -/
def mapPlaceholders (f : Text → Text) : Text → Text
  | [] => []
  | c :: rest =>
    match leadingRun? (c :: rest) with
    | some w => placeholder (f w) ++ mapPlaceholders f (rest.drop (w.length + 1))
    | none => c :: mapPlaceholders f rest
termination_by t => t.length
decreasing_by all_goals simp only [List.length_cons, List.length_drop]; omega

@[simp] theorem mapPlaceholders_nil (f : Text → Text) : mapPlaceholders f [] = [] := by
  rw [mapPlaceholders]

theorem mapPlaceholders_plain (f : Text → Text) {c : Char} {rest : Text}
    (plain : leadingRun? (c :: rest) = none) :
    mapPlaceholders f (c :: rest) = c :: mapPlaceholders f rest := by
  rw [mapPlaceholders]
  simp [plain]

theorem mapPlaceholders_mark (f : Text → Text) {w : Text} (run : IsRun w) (rest : Text) :
    mapPlaceholders f (placeholder w ++ rest) = placeholder (f w) ++ mapPlaceholders f rest := by
  have lead : leadingRun? (placeholder w ++ rest) = some w :=
    leadingRun?_eq_some_iff.mpr ⟨run, rest, rfl⟩
  have skip : (w ++ ['>'] ++ rest).drop (w.length + 1) = rest := by simp
  rw [placeholder, List.cons_append] at lead ⊢
  rw [mapPlaceholders, lead]
  simp only [skip]

/-- Where no placeholder can reach across, the text may be cut. -/
theorem mapPlaceholders_append_cons (f : Text → Text) {c : Char} (other : isLetter c = false)
    (unclosed : c ≠ '>') (s t : Text) :
    mapPlaceholders f (s ++ c :: t) = mapPlaceholders f s ++ mapPlaceholders f (c :: t) := by
  induction s using scan with
  | nil => simp
  | plain a rest plain ih =>
    have still : leadingRun? (a :: (rest ++ c :: t)) = none := by
      rw [leadingRun?, closedRun?_append_cons other unclosed]
      exact plain
    rw [List.cons_append, mapPlaceholders_plain f still, mapPlaceholders_plain f plain, ih,
      List.cons_append]
  | mark w rest run ih =>
    rw [List.append_assoc, mapPlaceholders_mark f run, mapPlaceholders_mark f run, ih,
      List.append_assoc]

theorem mapPlaceholders_cons (f : Text → Text) {c : Char} (other : c ≠ '<') (t : Text) :
    mapPlaceholders f (c :: t) = c :: mapPlaceholders f t :=
  mapPlaceholders_plain f (by simp [leadingRun?, other])

@[simp] theorem head?_mapPlaceholders (f : Text → Text) (t : Text) :
    (mapPlaceholders f t).head? = t.head? := by
  induction t using scan with
  | nil => simp
  | plain c rest plain => simp [mapPlaceholders_plain f plain]
  | mark w rest run =>
    rw [mapPlaceholders_mark f run]
    rfl

@[simp] theorem mapPlaceholders_eq_nil_iff {f : Text → Text} {t : Text} :
    mapPlaceholders f t = [] ↔ t = [] := by
  rw [← List.head?_eq_none_iff, head?_mapPlaceholders, List.head?_eq_none_iff]

/-- What is in front of the first `>` decides whether a mark before the text opens
a placeholder, and the map keeps all of it. -/
theorem leadingRun?_cons_mapPlaceholders (f : Text → Text) (c : Char) (t : Text) :
    leadingRun? (c :: mapPlaceholders f t) = leadingRun? (c :: t) := by
  have kept : (mapPlaceholders f t).takeWhile isLetter = t.takeWhile isLetter ∧
      ((mapPlaceholders f t).dropWhile isLetter).head? = (t.dropWhile isLetter).head? := by
    induction t using scan with
    | nil => simp
    | plain c rest plain ih =>
      rw [mapPlaceholders_plain f plain]
      by_cases letter : isLetter c = true
      · simp [letter, ih.1, ih.2]
      · simp [letter]
    | mark w rest run ih =>
      have other : isLetter '<' = false := by decide
      rw [mapPlaceholders_mark f run]
      simp [placeholder, other]
  simp only [leadingRun?, closedRun?, head?_mapPlaceholders, kept.1, kept.2]

theorem mapPlaceholders_mapPlaceholders {f : Text → Text} (runs : ∀ w, IsRun w → IsRun (f w))
    (g : Text → Text) (t : Text) :
    mapPlaceholders g (mapPlaceholders f t) = mapPlaceholders (g ∘ f) t := by
  induction t using scan with
  | nil => simp
  | plain c rest plain ih =>
    have still := (leadingRun?_cons_mapPlaceholders f c rest).trans plain
    rw [mapPlaceholders_plain f plain, mapPlaceholders_plain g still,
      mapPlaceholders_plain (g ∘ f) plain, ih]
  | mark w rest run ih =>
    rw [mapPlaceholders_mark f run, mapPlaceholders_mark g (runs w run),
      mapPlaceholders_mark (g ∘ f) run, ih]
    rfl

theorem placeholders_mapPlaceholders {f : Text → Text} (runs : ∀ w, IsRun w → IsRun (f w))
    (t : Text) : placeholders (mapPlaceholders f t) = (placeholders t).map f := by
  induction t using scan with
  | nil => simp [placeholders]
  | plain c rest plain ih =>
    have still := (leadingRun?_cons_mapPlaceholders f c rest).trans plain
    rw [mapPlaceholders_plain f plain, placeholders_plain still, placeholders_plain plain, ih]
  | mark w rest run ih =>
    rw [mapPlaceholders_mark f run, placeholders_mark (runs w run), placeholders_mark run, ih]
    rfl

theorem mapPlaceholders_congr {f g : Text → Text} {t : Text}
    (same : ∀ w ∈ placeholders t, f w = g w) : mapPlaceholders f t = mapPlaceholders g t := by
  induction t using scan with
  | nil => simp
  | plain c rest plain ih =>
    rw [placeholders_plain plain] at same
    rw [mapPlaceholders_plain f plain, mapPlaceholders_plain g plain, ih same]
  | mark w rest run ih =>
    rw [placeholders_mark run] at same
    rw [mapPlaceholders_mark f run, mapPlaceholders_mark g run, same w (by simp),
      ih fun v member => same v (by simp [member])]

theorem mapPlaceholders_of_fixed {f : Text → Text} {t : Text}
    (fixed : ∀ w ∈ placeholders t, f w = w) : mapPlaceholders f t = t := by
  rw [mapPlaceholders_congr (g := id) fixed]
  clear fixed
  induction t using scan with
  | nil => simp
  | plain c rest plain ih => rw [mapPlaceholders_plain id plain, ih]
  | mark w rest run ih => rw [mapPlaceholders_mark id run, ih, id]

theorem replace_mark {mark : Text} (proper : mark ≠ []) (new rest : Text) :
    replace mark new (mark ++ rest) = new ++ replace mark new rest := by
  have step : replace mark new (mark ++ rest) = [] ++ new ++ replace mark new rest :=
    replace_of_some (cut?_append_self proper rest)
  simpa using step

theorem replace_cons {mark : Text} (new : Text) {c : Char} {rest : Text}
    (absent : ¬mark <+: c :: rest) : replace mark new (c :: rest) = c :: replace mark new rest := by
  have later := cut?_cons absent
  cases found : cut? mark rest with
  | none =>
    rw [found] at later
    rw [replace_of_none found, replace_of_none later]
  | some parts =>
    rw [found] at later
    rw [replace_of_some found, replace_of_some later]
    rfl

theorem replace_append {mark : Text} (new : Text) {w : Text} (rest : Text)
    (absent : ∀ c ∈ w, mark.head? ≠ some c) (proper : mark ≠ []) :
    replace mark new (w ++ rest) = w ++ replace mark new rest := by
  induction w with
  | nil => rfl
  | cons c w ih =>
    have other : ¬mark <+: c :: (w ++ rest) := by
      intro starts
      obtain ⟨d, mark, rfl⟩ := List.exists_cons_of_ne_nil proper
      have same : d = c := (List.cons_prefix_cons.mp starts).1
      exact absent c (by simp) (by simp [same])
    rw [List.cons_append, replace_cons new other,
      ih fun d member => absent d (by simp [member]), List.cons_append]

/-- No other placeholder starts with the placeholder of a run. -/
theorem eq_of_placeholder_start {v w rest : Text} (first : IsRun v) (second : IsRun w)
    (starts : placeholder v <+: placeholder w ++ rest) : v = w := by
  obtain ⟨tail, same⟩ := starts
  have one : leadingRun? (placeholder v ++ tail) = some v :=
    leadingRun?_eq_some_iff.mpr ⟨first, tail, rfl⟩
  have other : leadingRun? (placeholder w ++ rest) = some w :=
    leadingRun?_eq_some_iff.mpr ⟨second, rest, rfl⟩
  rw [same, other] at one
  exact (Option.some.inj one).symm

theorem isRun_replaced {old new : Text} (run : IsRun new) (w : Text) (inside : IsRun w) :
    IsRun (if w = old then new else w) := by
  split
  · exact run
  · exact inside

/-- The search for the text of one placeholder agrees with the scanner of all. -/
theorem replacePlaceholder_eq_mapPlaceholders {old : Text} (run : IsRun old) (new t : Text) :
    replacePlaceholder old new t = mapPlaceholders (fun w => if w = old then new else w) t := by
  have proper : placeholder old ≠ [] := by simp [placeholder]
  unfold replacePlaceholder
  induction t using scan with
  | nil =>
    rw [mapPlaceholders_nil]
    exact replace_of_none (by simp [cut?, placeholder])
  | plain c rest plain ih =>
    have absent : ¬placeholder old <+: c :: rest := by
      rintro ⟨tail, same⟩
      rw [leadingRun?_eq_some_iff.mpr ⟨run, tail, same.symm⟩] at plain
      cases plain
    rw [replace_cons _ absent, mapPlaceholders_plain _ plain, ih]
  | mark w rest inside ih =>
    rw [mapPlaceholders_mark _ inside]
    by_cases same : w = old
    · rw [same, replace_mark proper, ih, if_pos rfl]
    · have absent : ¬placeholder old <+: '<' :: (w ++ '>' :: rest) := by
        intro starts
        rw [← placeholder_append] at starts
        exact same (eq_of_placeholder_start run inside starts).symm
      have closed : ∀ c ∈ w ++ ['>'], (placeholder old).head? ≠ some c := by
        intro c member
        rcases List.mem_append.mp member with letter | close
        · simpa [placeholder] using (inside.ne_open c letter).symm
        · simp_all [placeholder]
      have through := replace_append (placeholder new) rest closed proper
      simp only [List.append_assoc, List.singleton_append] at through
      rw [if_neg same, placeholder_append, placeholder_append, replace_cons _ absent, through, ih]

end Turnstile.Text
