import Turnstile.Proofs.Numeral

/-! The arguments as groups: a flag, a numeric option with its value, or an input. A group sets one
field and leaves the others alone, so only the order of the groups for one number matters. -/
namespace Turnstile.Options

/-- What an option sets. -/
inductive Setting where
  | flag (flag : Flag)
  | number (number : Number) (n : Nat)

/-- The field that is set. -/
def Setting.field : Setting → Flag ⊕ Number
  | .flag name => .inl name
  | .number name _ => .inr name

/-- The number that is set for a field, if it is this one. -/
def Setting.amount? (name : Number) : Setting → Option Nat
  | .flag _ => none
  | .number other n => if other = name then some n else none

def set (options : Options) : Setting → Options
  | .flag flag => options.raise flag
  | .number number n => options.assign n number

/-- The arguments of an option. A numeric option takes the next argument, whatever it looks like. -/
inductive Group : Setting → List Text → Prop where
  | flag {arg : Text} {flag : Flag} (spelled : spelled? flags arg = some flag) :
      Group (.flag flag) [arg]
  | number {arg value : Text} {number : Number} {n : Nat}
      (spelled : spelled? numbers arg = some number) (numeral : Text.Numeral value n)
      (small : n ≤ 2147483647) : Group (.number number n) [arg, value]

/-- No option is spelled like this. -/
structure IsInput (arg : Text) : Prop where
  flagless : spelled? flags arg = none
  numberless : spelled? numbers arg = none
  undashed : ¬['-', '-'] <+: arg

/-- The arguments are whole groups and make these settings, from the first options to the last.
An input needs room. -/
inductive Reads : Options → List Text → List Setting → Options → Prop where
  | done (options : Options) : Reads options [] [] options
  | option {options later : Options} {setting : Setting} {group args : List Text}
      {settings : List Setting} (first : Group setting group)
      (rest : Reads (options.set setting) args settings later) :
      Reads options (group ++ args) (setting :: settings) later
  | input {options later : Options} {arg : Text} {args : List Text} {settings : List Setting}
      (plain : IsInput arg) (room : options.input = [])
      (rest : Reads { options with input := arg } args settings later) :
      Reads options (arg :: args) settings later

def raised (options : Options) : Flag → Bool
  | .selftest => options.selftest
  | .model => options.model
  | .stats => options.stats
  | .trace => options.trace
  | .solver => options.solver
  | .help => options.help

def amount (options : Options) : Number → Nat
  | .depth => options.depth
  | .names => options.names
  | .timeout => options.timeout
  | .threads => options.threads

theorem spelled?_flags_of_number {arg : Text} {number : Number}
    (spelled : spelled? numbers arg = some number) : spelled? flags arg = none := by
  have apart : ∀ entry ∈ numbers, spelled? flags entry.1.toList = none := by decide
  obtain ⟨entry, found, _⟩ := Option.map_eq_some_iff.mp spelled
  have same : entry.1.toList = arg := by simpa using List.find?_some found
  rw [← same]
  exact apart entry (List.mem_of_find?_eq_some found)

theorem follow_flag {arg : Text} {flag : Flag} (spelled : spelled? flags arg = some flag)
    (options : Options) (rest : List Text) :
    options.follow (arg :: rest) = (options.raise flag).follow rest := by
  rw [follow, spelled]

theorem follow_number {arg : Text} {number : Number} (spelled : spelled? numbers arg = some number)
    (options : Options) (value : Text) (rest : List Text) :
    options.follow (arg :: value :: rest) =
      (readCount arg value).bind fun n => (options.assign n number).follow rest := by
  rw [follow, spelled, spelled?_flags_of_number spelled]
  rfl

theorem follow_input {arg : Text} (plain : IsInput arg) {options : Options}
    (room : options.input = []) (rest : List Text) :
    options.follow (arg :: rest) = { options with input := arg }.follow rest := by
  rw [follow, plain.flagless, plain.numberless]
  simp [plain.undashed, room]

theorem follow_group {setting : Setting} {group : List Text} (first : Group setting group)
    (options : Options) (rest : List Text) :
    options.follow (group ++ rest) = (options.set setting).follow rest := by
  cases first with
  | flag spelled => exact follow_flag spelled options rest
  | @number arg value number n spelled numeral small =>
    have count : readCount arg value = .ok n := readCount_eq_ok_iff.mpr ⟨numeral, small⟩
    rw [List.cons_append, List.singleton_append, follow_number spelled, count]
    rfl

namespace Reads

variable {options later : Options} {args : List Text} {settings : List Setting}

/-- What follows is read from the options reached. -/
theorem follow_append (reads : Reads options args settings later) (rest : List Text) :
    options.follow (args ++ rest) = later.follow rest := by
  induction reads with
  | done options => rfl
  | option first _ ih => rw [List.append_assoc, follow_group first, ih]
  | input plain room _ ih => rw [List.cons_append, follow_input plain room, ih]

end Reads

theorem check_eq_ok_iff {options final : Options} : options.check = .ok final ↔
    options = final ∧ (final.selftest = true ∨ final.help = true ∨ final.input ≠ []) := by
  unfold check
  split
  · next idle =>
    simp only [Bool.and_eq_true, Bool.not_eq_true', List.isEmpty_iff] at idle
    simp only [reduceCtorEq, false_iff]
    rintro ⟨rfl, busy⟩
    simp [idle] at busy
  · next busy =>
    rw [Except.ok.injEq]
    refine iff_self_and.mpr ?_
    rintro rfl
    by_contra idle
    simp at idle
    simp [idle] at busy

theorem reads_of_follow {options final : Options} {args : List Text}
    (accepted : options.follow args = .ok final) :
    ∃ settings, Reads options args settings final ∧
      (final.selftest = true ∨ final.help = true ∨ final.input ≠ []) := by
  fun_induction follow options args with
  | case1 options =>
    obtain ⟨rfl, busy⟩ := check_eq_ok_iff.mp accepted
    exact ⟨[], .done options, busy⟩
  | case2 options arg rest flag spelled ih =>
    obtain ⟨settings, reads, busy⟩ := ih accepted
    exact ⟨_, .option (.flag spelled) reads, busy⟩
  | case3 | case5 | case6 => cases accepted
  | case4 options arg number spelled _ value rest ih =>
    cases count : readCount arg value with
    | error fault =>
      rw [count] at accepted
      cases accepted
    | ok n =>
      rw [count] at accepted
      obtain ⟨numeral, small⟩ := readCount_eq_ok_iff.mp count
      obtain ⟨settings, reads, busy⟩ := ih n accepted
      exact ⟨_, .option (.number spelled numeral small) reads, busy⟩
  | case7 options arg rest numberless flagless undashed full ih =>
    obtain ⟨settings, reads, busy⟩ := ih accepted
    exact ⟨settings, .input ⟨flagless, numberless, by simpa using undashed⟩ (by simpa using full)
      reads, busy⟩

/-- The language of the arguments. -/
theorem ofArguments_eq_ok_iff {args : List Text} {options : Options} :
    ofArguments args = .ok options ↔ (∃ settings, Reads {} args settings options) ∧
      (options.selftest = true ∨ options.help = true ∨ options.input ≠ []) := by
  constructor
  · intro accepted
    obtain ⟨settings, reads, busy⟩ := reads_of_follow accepted
    exact ⟨⟨settings, reads⟩, busy⟩
  · rintro ⟨⟨settings, reads⟩, busy⟩
    have whole := reads.follow_append []
    rw [List.append_nil, follow] at whole
    exact whole.trans (check_eq_ok_iff.mpr ⟨rfl, busy⟩)

/-- The fields one by one. -/
theorem eq_of_fields {options other : Options} (input : options.input = other.input)
    (raised : ∀ flag, options.raised flag = other.raised flag)
    (amount : ∀ number, options.amount number = other.amount number) : options = other := by
  cases options
  cases other
  simp only [mk.injEq]
  exact ⟨input, raised .selftest, raised .model, raised .stats, raised .trace, raised .solver,
    raised .help, amount .depth, amount .names, amount .timeout, amount .threads⟩

theorem input_set (options : Options) (setting : Setting) :
    (options.set setting).input = options.input := by
  cases setting with
  | flag flag => cases flag <;> rfl
  | number number n => cases number <;> rfl

theorem amount_set (options : Options) (setting : Setting) (number : Number) :
    (options.set setting).amount number = (setting.amount? number).getD (options.amount number) := by
  cases setting with
  | flag flag => cases flag <;> rfl
  | number other n => cases other <;> cases number <;> rfl

theorem raised_set (options : Options) (setting : Setting) (flag : Flag) :
    (options.set setting).raised flag = true ↔
      setting = .flag flag ∨ options.raised flag = true := by
  cases setting with
  | flag other => cases other <;> cases flag <;> simp [set, raise, raised]
  | number other n => cases other <;> simp [set, assign, raised]

/-- A flag that is raised already changes nothing. -/
theorem set_of_raised {options : Options} {flag : Flag} (already : options.raised flag = true) :
    options.set (.flag flag) = options := by
  refine eq_of_fields (input_set _ _) (fun other => ?_) (amount_set _ _)
  rw [Bool.eq_iff_iff, raised_set, or_iff_right_iff_imp]
  rintro ⟨⟩
  exact already

theorem field_of_amount? {setting : Setting} {number : Number} {n : Nat}
    (given : setting.amount? number = some n) : setting.field = .inr number := by
  cases setting with
  | flag flag => cases given
  | number other m =>
    obtain ⟨rfl, _⟩ := Option.ite_none_right_eq_some.mp given
    rfl

/-- Options for different fields do not see each other. -/
theorem set_comm {first second : Setting} (different : first.field ≠ second.field)
    (options : Options) : (options.set first).set second = (options.set second).set first := by
  refine eq_of_fields ?_ (fun flag => ?_) fun number => ?_
  · simp only [input_set]
  · rw [Bool.eq_iff_iff]
    simp only [raised_set]
    exact or_left_comm
  · simp only [amount_set]
    cases one : first.amount? number with
    | none => rfl
    | some m =>
      cases two : second.amount? number with
      | none => rfl
      | some n => exact absurd ((field_of_amount? one).trans (field_of_amount? two).symm) different

namespace Reads

variable {options later : Options} {args : List Text} {settings : List Setting}

/-- The last number given is kept, or the one there was. -/
theorem amount_eq (reads : Reads options args settings later) (number : Number) :
    later.amount number =
      (settings.filterMap (Setting.amount? number)).getLast?.getD (options.amount number) := by
  induction reads with
  | done options => rfl
  | @option options later setting group args settings first _ ih =>
    rw [ih, amount_set]
    cases given : setting.amount? number with
    | none => rw [List.filterMap_cons_none given, Option.getD_none]
    | some n =>
      rw [List.filterMap_cons_some given, List.getLast?_cons, Option.getD_some, Option.getD_some]
  | input _ _ _ ih =>
    rw [ih]
    cases number <;> rfl

theorem raised_iff (reads : Reads options args settings later) (flag : Flag) :
    later.raised flag = true ↔ .flag flag ∈ settings ∨ options.raised flag = true := by
  induction reads with
  | done options => simp
  | option first _ ih => rw [ih, raised_set, List.mem_cons, eq_comm, or_left_comm, or_assoc]
  | input _ _ _ ih =>
    rw [ih]
    cases flag <;> rfl

end Reads

/-- The arguments are read group by group. The value of a numeric option is accepted exactly if it
is a number from zero to the largest of 32 bits, and is then what the option sets. The last number
given for a field is kept. A flag that comes again changes nothing, and two options for different
fields may change places. -/
theorem arguments_read_by_groups :
    (∀ (args : List Text) (options : Options), ofArguments args = .ok options ↔
      (∃ settings, Reads {} args settings options) ∧
        (options.selftest = true ∨ options.help = true ∨ options.input ≠ [])) ∧
    ∀ (before : List Text) (settings : List Setting) (options : Options),
      Reads {} before settings options →
      (∀ (arg value : Text) (number : Number) (after : List Text),
        spelled? numbers arg = some number →
        (∀ n : Nat, Text.Numeral value n → n ≤ 2147483647 →
          ofArguments (before ++ arg :: value :: after) = (options.assign n number).follow after) ∧
        ((∀ n : Nat, Text.Numeral value n → 2147483647 < n) →
          ∃ fault, ofArguments (before ++ arg :: value :: after) = .error fault ∧
            (fault = .notNumber arg value ∨ fault = .negative arg))) ∧
      (∀ number, options.amount number =
        (settings.filterMap (Setting.amount? number)).getLast?.getD
          (({} : Options).amount number)) ∧
      (∀ flag, options.raised flag = true ↔ .flag flag ∈ settings) ∧
      (∀ (flag : Flag) (arg : Text) (after : List Text), .flag flag ∈ settings →
        spelled? flags arg = some flag →
        ofArguments (before ++ arg :: after) = ofArguments (before ++ after)) ∧
      ∀ (first second : List Text) (one two : Setting) (after : List Text),
        Group one first → Group two second → one.field ≠ two.field →
        ofArguments (before ++ (first ++ (second ++ after))) =
          ofArguments (before ++ (second ++ (first ++ after))) := by
  refine ⟨fun args options => ofArguments_eq_ok_iff, fun before settings options reads => ?_⟩
  have raised (flag : Flag) : options.raised flag = true ↔ .flag flag ∈ settings := by
    have unset : ({} : Options).raised flag = false := by cases flag <;> rfl
    rw [reads.raised_iff, unset]
    simp
  have onward (rest : List Text) : ofArguments (before ++ rest) = options.follow rest :=
    reads.follow_append rest
  refine ⟨?_, reads.amount_eq, raised, ?_, ?_⟩
  · intro arg value number after spelled
    rw [onward, follow_number spelled]
    constructor
    · intro n numeral small
      have count : readCount arg value = .ok n := readCount_eq_ok_iff.mpr ⟨numeral, small⟩
      rw [count]
      rfl
    · intro refused
      obtain ⟨fault, count, which⟩ := readCount_of_refused arg refused
      exact ⟨fault, by rw [count]; rfl, which⟩
  · intro flag arg after member spelled
    rw [onward, onward, ← List.singleton_append, follow_group (.flag spelled),
      set_of_raised ((raised flag).mpr member)]
  · intro first second one two after left right different
    rw [onward, onward, follow_group left, follow_group right, follow_group right,
      follow_group left, set_comm different]

/-- A signed zero is accepted, and the number after the largest is not. The second number for a
field counts, whichever way the option is spelled. -/
theorem arguments_read_by_groups_limits :
    let before := ["--stats".toList, "-j".toList, "\t+07".toList]
    let goal := "A |~ A".toList
    ofArguments (before ++ ["--depth".toList, "-0".toList, goal]) =
        .ok { stats := true, threads := 7, depth := 0, input := goal } ∧
      (∃ fault, ofArguments (before ++ ["--names".toList, "2147483648".toList, goal]) =
        .error fault) ∧
      ofArguments (before ++ ["--threads".toList, "2147483647".toList, goal]) =
        .ok { stats := true, threads := 2147483647, input := goal } ∧
      ofArguments (before ++ ["--stats".toList, goal]) = ofArguments (before ++ [goal]) ∧
      ofArguments (before ++ ["--depth".toList, "5".toList, "-h".toList]) =
        ofArguments (before ++ ["-h".toList, "--depth".toList, "5".toList]) := by
  intro before goal
  have seven : Text.Numeral "\t+07".toList (7 : Nat) := Text.integer?_eq_some_iff.mp (by decide)
  have zero : Text.Numeral "-0".toList (0 : Nat) := Text.integer?_eq_some_iff.mp (by decide)
  have five : Text.Numeral "5".toList (5 : Nat) := Text.integer?_eq_some_iff.mp (by decide)
  have largest : Text.Numeral "2147483647".toList (2147483647 : Nat) :=
    Text.integer?_eq_some_iff.mp (by decide)
  have beyond : Text.integer? "2147483648".toList = some 2147483648 := by decide
  have threads : Group (.number .threads 7) ["-j".toList, "\t+07".toList] :=
    .number rfl seven (by decide)
  have depth : Group (.number .depth 5) ["--depth".toList, "5".toList] :=
    .number rfl five (by decide)
  have help : Group (.flag .help) ["-h".toList] := .flag rfl
  have reads : Reads {} before [.flag .stats, .number .threads 7]
      { stats := true, threads := 7 } := .option (.flag rfl) (.option threads (.done _))
  obtain ⟨values, _, _, again, exchange⟩ := arguments_read_by_groups.2 _ _ _ reads
  refine ⟨?_, ?_, ?_, again .stats _ _ (by simp) rfl,
    exchange _ _ _ _ [] depth help (by decide)⟩
  · exact (values _ _ .depth [goal] rfl).1 0 zero (by decide)
  · have outside (n : Nat) (numeral : Text.Numeral "2147483648".toList n) : 2147483647 < n := by
      have same := Option.some.inj (beyond.symm.trans (Text.integer?_eq_some_iff.mpr numeral))
      omega
    obtain ⟨fault, refused, _⟩ := (values "--names".toList _ .names [goal] rfl).2 outside
    exact ⟨fault, refused⟩
  · exact (values _ _ .threads [goal] rfl).1 2147483647 largest (by decide)

end Turnstile.Options
