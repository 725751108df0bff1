import Mathlib.Data.List.DropRight
import Mathlib.Data.Finset.Card
import Turnstile.Proofs.Enumeration

/-! What a supply of names does over all its calls. No candidate comes twice, so the search for
a free one ends after at most one candidate more than there are names in its way, and the
names that are issued between two resets are in the order of the candidates. -/
namespace Turnstile.NameSupply

/-- The names that must not be issued. -/
def blocked (supply : NameSupply) (avoid : List Name) : Finset Name :=
  (supply.taken.toList ++ avoid).toFinset

theorem isFree_eq_false_iff {supply : NameSupply} {avoid : List Name} {name : Name} :
    supply.isFree avoid name = false ↔ name ∈ supply.blocked avoid := by
  rw [blocked, List.mem_toFinset, List.mem_append, Std.TreeSet.mem_toList]
  change _ ↔ supply.isTaken name = true ∨ name ∈ avoid
  cases taken : supply.isTaken name <;> simp [isFree, taken]

theorem card_blocked_le (supply : NameSupply) (avoid : List Name) :
    (supply.blocked avoid).card ≤ supply.taken.size + avoid.length := by
  refine (List.toFinset_card_le _).trans ?_
  rw [List.length_append, Std.TreeSet.length_toList]

/-- The first position from the start on whose candidate is free. -/
structure FirstFree (free : Name → Bool) (start position : Nat) : Prop where
  reached : start ≤ position
  found : free (Name.candidate (UInt64.ofNat position)) = true
  skipped : ∀ earlier, start ≤ earlier → earlier < position →
    free (Name.candidate (UInt64.ofNat earlier)) = false

theorem probe_spec (free : Name → Bool) (bound start : Nat) :
    start ≤ probe free bound start ∧ probe free bound start ≤ start + bound ∧
      (∀ earlier, start ≤ earlier → earlier < probe free bound start →
        free (Name.candidate (UInt64.ofNat earlier)) = false) ∧
      (probe free bound start < start + bound →
        free (Name.candidate (UInt64.ofNat (probe free bound start))) = true) := by
  induction bound generalizing start with
  | zero =>
    refine ⟨le_rfl, le_rfl, ?_, ?_⟩ <;> simp only [probe] <;> omega
  | succ bound ih =>
    unfold probe
    split
    · next found => exact ⟨le_rfl, by omega, by omega, fun _ => found⟩
    · next taken =>
      obtain ⟨above, below, skipped, free⟩ := ih (start + 1)
      refine ⟨by omega, by omega, ?_, fun less => free (by omega)⟩
      intro earlier reached less
      rcases Nat.eq_or_lt_of_le reached with rfl | later
      · simpa using taken
      · exact skipped earlier later less

/-- Different positions have different candidates, so there are no more positions in a row
without a free one than names in the way. -/
theorem sub_le_card_blocked {supply : NameSupply} {avoid : List Name} {start stop : Nat}
    (fits : stop ≤ 2 ^ 64)
    (skipped : ∀ position, start ≤ position → position < stop →
      supply.isFree avoid (Name.candidate (UInt64.ofNat position)) = false) :
    stop - start ≤ (supply.blocked avoid).card := by
  have inside : ∀ position ∈ Finset.Ico start stop,
      Name.candidate (UInt64.ofNat position) ∈ supply.blocked avoid := by
    intro position member
    obtain ⟨above, below⟩ := Finset.mem_Ico.mp member
    exact isFree_eq_false_iff.mp (skipped position above below)
  have distinct : Set.InjOn (fun position => Name.candidate (UInt64.ofNat position))
      (Finset.Ico start stop) :=
    Name.injOn_candidate.mono fun position member =>
      (Finset.mem_Ico.mp member).2.trans_le fits
  simpa using Finset.card_le_card_of_injOn _ inside distinct

theorem position_fresh (supply : NameSupply) (avoid : List Name) :
    (supply.fresh avoid).2.position =
      probe (supply.isFree avoid) (supply.taken.size + avoid.length) supply.position + 1 := rfl

/-- As long as the candidates last, the name that is issued is the first that is free. -/
theorem fresh_eq {supply : NameSupply} {avoid : List Name}
    (room : (supply.fresh avoid).2.position ≤ 2 ^ 64) :
    ∃ position, FirstFree (supply.isFree avoid) supply.position position ∧
      position - supply.position ≤ (supply.blocked avoid).card ∧
      (supply.fresh avoid).1 = Name.candidate (UInt64.ofNat position) ∧
      (supply.fresh avoid).2.position = position + 1 := by
  obtain ⟨above, below, skipped, free⟩ := probe_spec (supply.isFree avoid)
    (supply.taken.size + avoid.length) supply.position
  rw [position_fresh] at room ⊢
  generalize found : probe (supply.isFree avoid) (supply.taken.size + avoid.length)
    supply.position = position at *
  have isFree : supply.isFree avoid (Name.candidate (UInt64.ofNat position)) = true := by
    by_contra taken
    rw [Bool.not_eq_true] at taken
    have last : position = supply.position + (supply.taken.size + avoid.length) := by
      by_contra other
      simp [free (by omega)] at taken
    have many : position + 1 - supply.position ≤ (supply.blocked avoid).card := by
      refine sub_le_card_blocked room fun earlier reached less => ?_
      rcases Nat.eq_or_lt_of_le (Nat.le_of_lt_succ less) with rfl | before
      · exact taken
      · exact skipped earlier reached before
    have few := supply.card_blocked_le avoid
    omega
  refine ⟨position, ⟨above, isFree, skipped⟩, sub_le_card_blocked (by omega) skipped, ?_, rfl⟩
  simp [fresh, found, isFree]

/-- The candidates last if there are more of them than names in the way. -/
theorem position_fresh_le {supply : NameSupply} {avoid : List Name}
    (enough : supply.position + (supply.blocked avoid).card < 2 ^ 64) :
    (supply.fresh avoid).2.position ≤ 2 ^ 64 := by
  obtain ⟨-, -, skipped, -⟩ := probe_spec (supply.isFree avoid)
    (supply.taken.size + avoid.length) supply.position
  rw [position_fresh]
  by_contra late
  have many := sub_le_card_blocked enough fun earlier reached less =>
    skipped earlier reached (by omega)
  omega

/-- What can be asked of a supply. -/
inductive Call where
  | fresh (avoid : List Name)
  | reserve (names : List Name)
  | reset
deriving DecidableEq

namespace Call

def isFresh : Call → Bool
  | fresh _ => true
  | reserve _ | reset => false

def isReset : Call → Bool
  | reset => true
  | fresh _ | reserve _ => false

end Call

def call (supply : NameSupply) : Call → NameSupply
  | .fresh avoid => (supply.fresh avoid).2
  | .reserve names => supply.reserve names
  | .reset => supply.reset

def answer (supply : NameSupply) : Call → Option Name
  | .fresh avoid => some (supply.fresh avoid).1
  | .reserve _ | .reset => none

/-- A new supply after some calls. -/
def after (calls : List Call) : NameSupply := calls.foldl call {}

/-- The names that a supply gives out, in the order of the calls. -/
def answers (supply : NameSupply) : List Call → List Name
  | [] => []
  | first :: rest => (supply.answer first).toList ++ answers (supply.call first) rest

/-- The calls since the last reset. -/
def recent (calls : List Call) : List Call := calls.rtakeWhile (!·.isReset)

@[simp] theorem after_concat (calls : List Call) (last : Call) :
    after (calls ++ [last]) = (after calls).call last := by
  simp [after]

theorem after_fresh (calls : List Call) (avoid : List Name) :
    after (calls ++ [Call.fresh avoid]) = ((after calls).fresh avoid).2 := by
  rw [after_concat, call]

theorem answers_concat (supply : NameSupply) (calls : List Call) (last : Call) :
    supply.answers (calls ++ [last]) =
      supply.answers calls ++ ((calls.foldl call supply).answer last).toList := by
  induction calls generalizing supply with
  | nil => simp [answers]
  | cons first rest ih => simp [answers, ih]

@[simp] theorem recent_fresh (calls : List Call) (avoid : List Name) :
    recent (calls ++ [Call.fresh avoid]) = recent calls ++ [.fresh avoid] :=
  List.rtakeWhile_concat_pos _ _ _ rfl

@[simp] theorem recent_reserve (calls : List Call) (names : List Name) :
    recent (calls ++ [Call.reserve names]) = recent calls ++ [.reserve names] :=
  List.rtakeWhile_concat_pos _ _ _ rfl

@[simp] theorem recent_reset (calls : List Call) : recent (calls ++ [Call.reset]) = [] :=
  List.rtakeWhile_concat_neg _ _ _ (by simp [Call.isReset])

/-- A reset makes a supply new. So what holds of a new supply and is kept by the other calls
holds of the calls since the last reset, whatever came before them. -/
theorem recent_induction {P : List Call → NameSupply → Prop} (new : P [] {})
    (fresh : ∀ calls supply avoid, P calls supply →
      P (calls ++ [Call.fresh avoid]) (supply.fresh avoid).2)
    (reserve : ∀ calls supply names, P calls supply →
      P (calls ++ [Call.reserve names]) (supply.reserve names)) (calls : List Call) :
    P (recent calls) (after calls) := by
  induction calls using List.reverseRecOn with
  | nil => exact new
  | append_singleton calls last ih =>
    rw [after_concat]
    cases last with
    | fresh avoid =>
      rw [recent_fresh]
      exact fresh _ _ _ ih
    | reserve names =>
      rw [recent_reserve]
      exact reserve _ _ _ ih
    | reset =>
      rw [recent_reset]
      exact new

theorem after_recent (calls : List Call) : after (recent calls) = after calls := by
  refine recent_induction (P := fun calls supply => after calls = supply) rfl ?_ ?_ calls
  · rintro calls _ avoid rfl
    exact after_concat _ _
  · rintro calls _ names rfl
    exact after_concat _ _

theorem issued_after (calls : List Call) :
    (after calls).issued = (recent calls).countP Call.isFresh := by
  refine recent_induction (P := fun calls supply => supply.issued = calls.countP Call.isFresh)
    rfl ?_ ?_ calls
  · intro calls supply avoid counted
    rw [List.countP_append, ← counted]
    rfl
  · intro calls supply names counted
    rw [List.countP_append, ← counted]
    rfl

theorem isTaken_of_reserve {calls : List Call} {names : List Name} {name : Name}
    (reserved : .reserve names ∈ recent calls) (member : name ∈ names) :
    (after calls).isTaken name = true := by
  refine recent_induction (P := fun calls supply => ∀ names, .reserve names ∈ calls →
    ∀ name ∈ names, supply.isTaken name = true) (by simp) ?_ ?_ calls names reserved name member
  · intro calls supply avoid kept names reserved name member
    have earlier : .reserve names ∈ calls := by simpa using reserved
    simp [isTaken_fresh, kept names earlier name member]
  · intro calls supply names kept names' reserved name member
    rw [isTaken_reserve]
    rcases List.mem_append.mp reserved with earlier | last
    · simp [kept names' earlier name member]
    · obtain rfl : names' = names := by simpa using last
      simp [member]

/-- The names given out since the last reset. -/
def given (calls : List Call) : List Name := answers {} (recent calls)

theorem given_fresh (calls : List Call) (avoid : List Name) :
    given (calls ++ [Call.fresh avoid]) = given calls ++ [((after calls).fresh avoid).1] := by
  rw [given, recent_fresh, answers_concat, given, ← after_recent calls]
  rfl

theorem length_answers (supply : NameSupply) (calls : List Call) :
    (supply.answers calls).length = calls.countP Call.isFresh := by
  induction calls generalizing supply with
  | nil => rfl
  | cons first rest ih =>
    rw [answers, List.length_append, ih, List.countP_cons, Nat.add_comm]
    cases first <;> rfl

/-- The names are candidates at increasing positions, all of them behind the supply. -/
theorem exists_positions {calls : List Call} (room : (after calls).position ≤ 2 ^ 64) :
    ∃ positions : List Nat, positions.Pairwise (· < ·) ∧
      (∀ position ∈ positions, position < (after calls).position) ∧
      given calls = positions.map fun position => Name.candidate (UInt64.ofNat position) := by
  induction calls using List.reverseRecOn with
  | nil => exact ⟨[], .nil, by simp, rfl⟩
  | append_singleton calls last ih =>
    rw [after_concat] at room ⊢
    cases last with
    | fresh avoid =>
      obtain ⟨position, first, -, name, next⟩ := fresh_eq room
      have reached := first.reached
      change ((after calls).fresh avoid).2.position ≤ 2 ^ 64 at room
      obtain ⟨positions, increasing, behind, same⟩ := ih (by omega)
      refine ⟨positions ++ [position], ?_, ?_, ?_⟩
      · rw [List.pairwise_append]
        refine ⟨increasing, List.pairwise_singleton _ _, ?_⟩
        intro earlier member
        simpa using (behind earlier member).trans_le reached
      · intro earlier member
        change earlier < ((after calls).fresh avoid).2.position
        rcases List.mem_append.mp member with old | new
        · have less := behind earlier old
          omega
        · obtain rfl := List.mem_singleton.mp new
          omega
      · rw [given_fresh, same, name, List.map_append, List.map_singleton]
    | reserve names =>
      obtain ⟨positions, increasing, behind, same⟩ := ih room
      refine ⟨positions, increasing, behind, ?_⟩
      rw [← same, given, recent_reserve, answers_concat]
      exact List.append_nil _
    | reset => exact ⟨[], .nil, by simp, by rw [given, recent_reset]; rfl⟩

/-- Between two resets the names are issued in the order of the candidates, and as many as were
asked for. Each is the first candidate from the position on that is neither taken nor to be
avoided, and no more candidates are looked at than there are names in the way, and one. The
candidates have to last: they do if not all that are left are in the way. -/
theorem issues_first_free (calls : List Call) (room : (after calls).position ≤ 2 ^ 64) :
    (given calls).Pairwise (List.Shortlex (· < ·)) ∧ (given calls).Nodup ∧
    (∀ name ∈ given calls, Text.isName name = true) ∧
    (after calls).issued = (recent calls).countP Call.isFresh ∧
    (given calls).length = (after calls).issued ∧
    ∀ avoid : List Name,
      ((after calls).position + ((after calls).blocked avoid).card < 2 ^ 64 →
        (after (calls ++ [Call.fresh avoid])).position ≤ 2 ^ 64) ∧
      ((after (calls ++ [Call.fresh avoid])).position ≤ 2 ^ 64 → ∃ (position : Nat) (name : Name),
        FirstFree ((after calls).isFree avoid) (after calls).position position ∧
        name = Name.candidate (UInt64.ofNat position) ∧
        (after calls).fresh avoid = (name, after (calls ++ [Call.fresh avoid])) ∧
        given (calls ++ [Call.fresh avoid]) = given calls ++ [name] ∧
        (after (calls ++ [Call.fresh avoid])).position = position + 1 ∧
        position + 1 - (after calls).position ≤ ((after calls).blocked avoid).card + 1 ∧
        name ∉ avoid ∧ ∀ names, .reserve names ∈ recent calls → name ∉ names) := by
  obtain ⟨positions, increasing, behind, same⟩ := exists_positions room
  have ordered : (given calls).Pairwise (List.Shortlex (· < ·)) := by
    rw [same, List.pairwise_map]
    refine increasing.imp_of_mem fun _ member less => ?_
    exact Name.shortlex_candidate_ofNat less ((behind _ member).trans_le room)
  refine ⟨ordered, ?_, ?_, issued_after calls, ?_, fun avoid => ⟨?_, ?_⟩⟩
  · refine List.Pairwise.imp ?_ ordered
    rintro name _ before rfl
    exact Name.not_shortlex_self name before
  · intro name member
    rw [same] at member
    obtain ⟨position, _, rfl⟩ := List.mem_map.mp member
    exact Name.isName_candidate _
  · rw [issued_after, given, length_answers]
  · intro enough
    rw [after_fresh]
    exact position_fresh_le enough
  · intro last
    rw [after_fresh] at last ⊢
    obtain ⟨position, first, bound, name, next⟩ := fresh_eq last
    have issued : (after calls).fresh avoid = (Name.candidate (UInt64.ofNat position),
        ((after calls).fresh avoid).2) := Prod.ext name rfl
    obtain ⟨-, free, outside⟩ := fresh_spec issued
    have listed := given_fresh calls avoid
    rw [name] at listed
    refine ⟨position, Name.candidate (UInt64.ofNat position), first, rfl, issued, listed, next, ?_,
      outside, ?_⟩
    · omega
    intro names reserved member
    rw [isTaken_of_reserve reserved member] at free
    cases free

/-- The name `aa` was issued before the reset and is reserved after it. -/
theorem issues_first_free_after_reset :
    let calls : List Call :=
      [.fresh [], .reset, .reserve ["aa".toList, "ab".toList], .fresh [], .fresh ["ad".toList]]
    (after calls).position ≤ 2 ^ 64 ∧ given calls = ["ac".toList, "ae".toList] ∧
      (given calls).Pairwise (List.Shortlex (· < ·)) ∧ (given calls).length = (after calls).issued ∧
      ∃ position name, FirstFree ((after calls).isFree ["af".toList]) 5 position ∧
        (after calls).fresh ["af".toList] = (name, after (calls ++ [Call.fresh ["af".toList]])) ∧
        name ∉ ["af".toList] := by
  intro calls
  have room : (after calls).position ≤ 2 ^ 64 := by decide +kernel
  have here : (after calls).position = 5 := by decide +kernel
  obtain ⟨ordered, _, _, _, counted, next⟩ := issues_first_free calls room
  obtain ⟨position, name, first, _, issued, _, _, _, outside, _⟩ :=
    (next ["af".toList]).2 (by decide +kernel)
  exact ⟨room, by decide +kernel, ordered, counted, position, name, here ▸ first, issued, outside⟩

end Turnstile.NameSupply
