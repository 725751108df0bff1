import Turnstile.Proofs.RoundTrip

/-! Instances of canonical formulas are canonical. No keyword has a mark of a placeholder, and
a name is too long to be bound, so a text that reads as an atom still does when other
letters stand in its placeholders. -/
namespace Turnstile

namespace Text

section Words

variable {g : Text → Text} (runs : ∀ w, IsRun w → IsRun (g w))

include runs

/-- Characters that are no letters are neither lost nor moved. -/
theorem filter_mapPlaceholders {p : Char → Bool} (other : ∀ c, isLetter c = true → p c = false)
    (t : Text) : (mapPlaceholders g t).filter p = t.filter p := by
  have none {w : Text} (run : IsRun w) : w.filter p = [] := by
    rw [List.filter_eq_nil_iff]
    intro c member
    simp [other c (run.letters c member)]
  induction t using scan with
  | nil => simp
  | plain c rest plain ih =>
    rw [mapPlaceholders_plain g plain, List.filter_cons, List.filter_cons, ih]
  | mark w rest run ih =>
    rw [mapPlaceholders_mark g run, List.filter_append, List.filter_append, ih]
    simp [placeholder, List.filter_cons, none run, none (runs w run)]

theorem mem_mapPlaceholders {c : Char} (other : isLetter c = false) {t : Text} :
    c ∈ mapPlaceholders g t ↔ c ∈ t := by
  have same := filter_mapPlaceholders runs (p := (· == c)) (fun d letter => ?_) t
  · have both := congrArg (c ∈ ·) same
    simpa [List.mem_filter] using both
  · rw [← Bool.not_eq_true, beq_iff_eq]
    rintro rfl
    simp [other] at letter

theorem parens_mapPlaceholders (t : Text) : parens (mapPlaceholders g t) = parens t := by
  apply filter_mapPlaceholders runs
  intro c letter
  obtain ⟨opens, closes⟩ := ne_paren_of_isLetter letter
  simp [opens, closes]

theorem isWord_mapPlaceholders {w : Text} (word : IsWord w) : IsWord (mapPlaceholders g w) := by
  refine ⟨mapPlaceholders_eq_nil_iff.not.mpr word.proper, ?_⟩
  intro c member
  by_cases letter : isLetter c = true
  · exact isBlank_of_isLetter letter
  · exact word.solid c ((mem_mapPlaceholders runs (by simpa using letter)).mp member)

omit runs in
theorem mapPlaceholders_unwords (ws : List Text) :
    mapPlaceholders g (unwords ws) = unwords (ws.map (mapPlaceholders g)) := by
  induction ws with
  | nil => simp
  | cons w ws ih =>
    by_cases last : ws = []
    · simp [last]
    · rw [unwords_cons w last, mapPlaceholders_append_cons g (by decide) (by decide),
        mapPlaceholders_cons g (by decide), ih, List.map_cons,
        unwords_cons _ (by simpa using last)]

theorem words_mapPlaceholders {t : Text} (spaced : SingleSpaced t) :
    words (mapPlaceholders g t) = (words t).map (mapPlaceholders g) ∧
      SingleSpaced (mapPlaceholders g t) := by
  have each : ∀ w ∈ (words t).map (mapPlaceholders g), IsWord w := by
    intro w member
    obtain ⟨v, inside, rfl⟩ := List.mem_map.mp member
    exact isWord_mapPlaceholders runs (isWord_of_mem_words inside)
  have image := mapPlaceholders_unwords (g := g) (words t)
  rw [show unwords (words t) = t from spaced] at image
  rw [image]
  exact ⟨words_unwords each, singleSpaced_unwords each⟩

/-- A keyword has no placeholders, and nothing becomes one. -/
theorem ofWord?_mapPlaceholders (w : Text) :
    Operator.ofWord? (mapPlaceholders g w) = Operator.ofWord? w := by
  have other {v : Text} (opens : '<' ∈ v) : Operator.ofWord? v = none := by
    rw [Option.eq_none_iff_forall_ne_some]
    intro operator spelled
    exact (Operator.not_mem_of_ofWord? spelled).2.2 opens
  by_cases opens : '<' ∈ w
  · rw [other opens, other ((mem_mapPlaceholders runs (by decide)).mpr opens)]
  · have plain : ∀ c ∈ w, c ≠ '<' := fun c member => ne_of_mem_of_not_mem member opens
    have none : placeholders w = [] := by simpa [placeholders] using placeholders_append plain []
    rw [mapPlaceholders_of_fixed (by simp [none])]

theorem absent_mapPlaceholders {ws : List Text} (undivided : Division.Absent ws) :
    Division.Absent (ws.map (mapPlaceholders g)) := by
  intro before v after c parts spelled
  obtain ⟨left, later, rfl, rfl, rest⟩ := List.map_eq_append_iff.mp parts
  obtain ⟨w, right, rfl, rfl, rfl⟩ := List.map_eq_cons_iff.mp rest
  rw [ofWord?_mapPlaceholders runs] at spelled
  have same : parens (left.map (mapPlaceholders g)).flatten = parens left.flatten := by
    simp only [parens, List.filter_flatten, List.map_map]
    congr 1
    exact List.map_congr_left fun w _ => parens_mapPlaceholders runs w
  rw [balance_congr same]
  exact undivided left w right c rfl spelled

theorem leadingRun?_mapPlaceholders (t : Text) :
    leadingRun? (mapPlaceholders g t) = (leadingRun? t).map g := by
  induction t using scan with
  | nil => simp [leadingRun?]
  | plain c rest plain =>
    rw [mapPlaceholders_plain g plain, leadingRun?_cons_mapPlaceholders, plain, Option.map_none]
  | mark w rest run =>
    rw [mapPlaceholders_mark g run, leadingRun?_eq_some_iff.mpr ⟨runs w run, _, rfl⟩,
      leadingRun?_eq_some_iff.mpr ⟨run, rest, rfl⟩, Option.map_some]

/-- A variable with its scope stands in front only if one stood there before. -/
theorem opensScope_of_mapPlaceholders (grows : ∀ w, w.length ≤ (g w).length) {t : Text}
    (opens : Lead.opensScope (mapPlaceholders g t) = true) : Lead.opensScope t = true := by
  obtain ⟨x, u, letter, image⟩ := Lead.opensScope_iff.mp opens
  have found := leadingRun?_mapPlaceholders runs t
  rw [leadingRun?_eq_some_iff.mpr ⟨isRun_singleton letter, '(' :: u, image⟩] at found
  obtain ⟨w, lead, short⟩ := Option.map_eq_some_iff.mp found.symm
  obtain ⟨run, rest, rfl⟩ := leadingRun?_eq_some_iff.mp lead
  -- The letters become no fewer, so a single one was a single one before.
  obtain ⟨y, rfl⟩ : ∃ y, w = [y] := by
    have bound := grows w
    rw [short, List.length_singleton] at bound
    have positive := List.length_pos_iff.mpr run.proper
    exact List.length_eq_one_iff.mp (by omega)
  rw [mapPlaceholders_mark g run, short] at image
  have same : placeholder [x] ++ mapPlaceholders g rest = placeholder [x] ++ '(' :: u := image
  have scope : (mapPlaceholders g rest).head? = some '(' := by
    rw [List.append_cancel_left same]
    rfl
  obtain ⟨v, rfl⟩ := List.head?_eq_some_iff.mp ((head?_mapPlaceholders g rest).symm.trans scope)
  exact Lead.opensScope_iff.mpr ⟨y, v, run.letters y (by simp), rfl⟩

omit runs in
theorem exists_cons_of_mapPlaceholders {t rest : Text} {c : Char} (other : c ≠ '<')
    (image : mapPlaceholders g t = c :: rest) :
    ∃ tail, t = c :: tail ∧ mapPlaceholders g tail = rest := by
  have first := head?_mapPlaceholders g t
  rw [image] at first
  obtain ⟨tail, rfl⟩ := List.head?_eq_some_iff.mp first.symm
  rw [mapPlaceholders_cons g other] at image
  exact ⟨tail, rfl, List.tail_eq_of_cons_eq image⟩

/-- Nothing leads the words after the change that did not lead them before. -/
theorem exists_leads_of_mapPlaceholders (grows : ∀ w, w.length ≤ (g w).length) {ws : List Text}
    {lead : Lead} (leads : Lead.Leads (ws.map (mapPlaceholders g)) lead) :
    ∃ lead, Lead.Leads ws lead := by
  generalize image : ws.map (mapPlaceholders g) = vs at leads
  cases leads with
  | negation spelled =>
    obtain ⟨w, rest, rfl, rfl, rfl⟩ := List.map_eq_cons_iff.mp image
    rw [ofWord?_mapPlaceholders runs] at spelled
    exact ⟨_, .negation spelled⟩
  | quantifier spelled =>
    obtain ⟨w, rest, rfl, rfl, rfl⟩ := List.map_eq_cons_iff.mp image
    rw [ofWord?_mapPlaceholders runs] at spelled
    exact ⟨_, .quantifier spelled⟩
  | gluedNegation =>
    obtain ⟨w, rest, rfl, word, rfl⟩ := List.map_eq_cons_iff.mp image
    obtain ⟨tail, rfl, scope⟩ := exists_cons_of_mapPlaceholders (by decide) word
    obtain ⟨inside, rfl, _⟩ := exists_cons_of_mapPlaceholders (by decide) scope
    exact ⟨_, .gluedNegation⟩
  | @gluedQuantifier _ q x v letter =>
    obtain ⟨w, rest, rfl, word, rfl⟩ := List.map_eq_cons_iff.mp image
    obtain ⟨tail, rfl, scope⟩ := exists_cons_of_mapPlaceholders (by cases q <;> decide) word
    have opens := opensScope_of_mapPlaceholders runs grows
      (Lead.opensScope_iff.mpr ⟨x, v, letter, scope⟩)
    obtain ⟨y, inside, own, rfl⟩ := Lead.opensScope_iff.mp opens
    exact ⟨_, .gluedQuantifier own⟩

omit runs in
theorem getLast?_mapPlaceholders (t : Text) : (mapPlaceholders g t).getLast? = t.getLast? := by
  induction t using scan with
  | nil => simp
  | plain c rest plain ih =>
    rw [mapPlaceholders_plain g plain, List.getLast?_cons, List.getLast?_cons, ih]
  | mark w rest run ih =>
    rw [mapPlaceholders_mark g run, List.getLast?_append, List.getLast?_append, ih]
    simp [placeholder, List.getLast?_cons]

theorem inner?_mapPlaceholders {t : Text} (bare : inner? t = none) :
    inner? (mapPlaceholders g t) = none := by
  rw [Option.eq_none_iff_forall_ne_some]
  intro image found
  obtain ⟨whole, closed⟩ := inner?_eq_some_iff.mp found
  obtain ⟨tail, rfl, scope⟩ := exists_cons_of_mapPlaceholders (by decide) whole
  have last : tail.getLast? = some ')' := by
    rw [← getLast?_mapPlaceholders (g := g), scope]
    simp
  obtain ⟨inside, rfl⟩ := List.getLast?_eq_some_iff.mp last
  rw [mapPlaceholders_append_cons g (by decide) (by decide), mapPlaceholders_cons g (by decide),
    mapPlaceholders_nil] at scope
  rw [← List.append_cancel_right scope, depth?_congr (parens_mapPlaceholders runs inside)] at closed
  rw [inner?_eq_some_iff.mpr ⟨rfl, closed⟩] at bare
  cases bare

end Words
end Text

namespace Formula

theorem CanonicalAtom.mapPlaceholders {g : Text → Text} {t : Text} (canonical : CanonicalAtom t)
    (runs : ∀ w, Text.IsRun w → Text.IsRun (g w)) (grows : ∀ w, w.length ≤ (g w).length) :
    CanonicalAtom (Text.mapPlaceholders g t) := by
  obtain ⟨bare, some, unled, undivided⟩ := reading_of_parse canonical.reads
  obtain ⟨words, spaced⟩ := Text.words_mapPlaceholders runs canonical.spaced
  have trimmed := (Text.singleSpaced_iff.mp spaced).2
  have balanced : Text.Balanced (Text.mapPlaceholders g t) := by
    rw [Text.Balanced, Text.depth?_congr (Text.parens_mapPlaceholders runs t)]
    exact canonical.balanced
  refine ⟨parse_of_reading ?_ ?_ ?_ ?_, spaced, balanced⟩
  · have unwrapped := (Text.strip_spec t).2.1
    rw [bare] at unwrapped
    exact Text.strip_eq_self trimmed (Text.inner?_mapPlaceholders runs unwrapped)
  · exact Text.mapPlaceholders_eq_nil_iff.not.mpr some
  · intro lead leads
    rw [words] at leads
    obtain ⟨before, led⟩ := Text.exists_leads_of_mapPlaceholders runs grows leads
    exact unled before led
  · rw [words]
    exact Text.absent_mapPlaceholders runs undivided

theorem Canonical.instantiate {f : Formula} (canonical : f.Canonical) {var : Text} {name : Name}
    (single : Text.isVariable var = true) (named : Text.isName name = true) :
    (f.instantiate var name).Canonical := by
  obtain ⟨x, rfl, letter⟩ := Text.isVariable_iff.mp single
  obtain ⟨long, run⟩ := Text.isName_iff.mp named
  refine ⟨?_, wellBound_instantiate.mpr canonical.bound⟩
  intro t member
  rw [instantiate_eq_mapAtoms, atoms_mapAtoms] at member
  obtain ⟨u, inside, rfl⟩ := List.mem_map.mp member
  rw [Text.replacePlaceholder_eq_mapPlaceholders (Text.isRun_singleton letter)]
  refine (canonical.atoms u inside).mapPlaceholders (Text.isRun_replaced run) fun w => ?_
  split
  · next same =>
    rw [same, List.length_singleton]
    omega
  · exact Nat.le_refl _

end Formula
end Turnstile
