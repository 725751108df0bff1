import Mathlib.Algebra.BigOperators.Intervals
import Mathlib.Algebra.Order.BigOperators.Group.Finset
import Mathlib.Data.List.Shortlex
import Mathlib.Data.Set.Card
import Turnstile.Proofs.FreshName

/-! The order of the candidates. Every number is the candidates of all shorter lengths and an
offset into its own length, and this holds of words of 64 bits too: the block of length 14 is
too small after the wrap-around, but no word goes beyond the block of length 15. So candidates
come by length and then in alphabetical order, and none is left out as long as blocks are right. -/
namespace Turnstile.Name

/-- The candidates of a length, as many as a word of 64 bits counts. -/
def block (length : Nat) : Nat := 26 ^ length % 2 ^ 64

/-- The candidates before those of a length. -/
def shorter (length : Nat) : Nat := ∑ k ∈ Finset.Ico 2 length, block k

/-- Up to length 13 nothing wraps around. -/
theorem pow_lt_of_short {length : Nat} (short : length ≤ 13) : 26 ^ length < 2 ^ 64 :=
  calc 26 ^ length ≤ 26 ^ 13 := Nat.pow_le_pow_right (by decide) short
    _ < 2 ^ 64 := by norm_num

theorem block_of_short {length : Nat} (short : length ≤ 13) : block length = 26 ^ length :=
  Nat.mod_eq_of_lt (pow_lt_of_short short)

theorem block_le (length : Nat) : block length ≤ 26 ^ length := Nat.mod_le _ _

theorem block_succ (length : Nat) : block (length + 1) = block length * 26 % 2 ^ 64 := by
  rw [block, block, pow_succ, Nat.mod_mul_mod]

theorem shorter_succ {length : Nat} (long : 2 ≤ length) :
    shorter (length + 1) = shorter length + block length :=
  Finset.sum_Ico_succ_top long block

theorem shorter_mono : Monotone shorter := by
  intro short long le
  exact Finset.sum_le_sum_of_subset (Finset.Ico_subset_Ico_right le)

/-- There are words enough for some of length 15, but not for all of them. -/
theorem length_le_of_shorter_lt {length : Nat} (bound : shorter length < 2 ^ 64) : length ≤ 15 := by
  by_contra long
  have all : shorter 16 ≤ shorter length := shorter_mono (by omega)
  have many : 2 ^ 64 ≤ shorter 16 := by decide +kernel
  omega

theorem block_pos {length : Nat} (bound : length ≤ 15) : 0 < block length := by
  have each : ∀ k ≤ 15, 0 < block k := by decide +kernel
  exact each length bound

theorem shorter_of_short {length : Nat} (short : length ≤ 14) :
    shorter length = ∑ k ∈ Finset.Ico 2 length, 26 ^ k := by
  refine Finset.sum_congr rfl fun k member => block_of_short ?_
  have below := (Finset.mem_Ico.mp member).2
  omega

/-- The rounds in which whole lengths are skipped. They end only where the offset is inside
the block. -/
inductive Skips : UInt64 → UInt64 → Nat → UInt64 → Nat → Prop where
  | stop (inside : n < size) : Skips n size length n length
  | skip (past : size ≤ n) (rest : Skips (n - size) (size * 26) (length + 1) offset last) :
      Skips n size length offset last

/-- The number of a candidate, taken apart into its length and the offset there. -/
structure Located (n offset length : Nat) : Prop where
  long : 2 ≤ length
  inside : offset < block length
  position : n = shorter length + offset

theorem toNat_sub_block {n size : UInt64} {length : Nat} (long : 2 ≤ length)
    (same : size.toNat = block length) (past : size ≤ n) :
    shorter (length + 1) + (n - size).toNat = shorter length + n.toNat := by
  have enough := UInt64.le_iff_toNat_le.mp past
  rw [UInt64.toNat_sub_of_le _ _ past, shorter_succ long, same]
  omega

theorem toNat_mul_block {size : UInt64} {length : Nat} (same : size.toNat = block length) :
    (size * 26).toNat = block (length + 1) := by
  rw [UInt64.toNat_mul, same, block_succ]
  rfl

theorem Skips.located {n size offset : UInt64} {length last : Nat}
    (rounds : Skips n size length offset last) (long : 2 ≤ length)
    (same : size.toNat = block length) :
    Located (shorter length + n.toNat) offset.toNat last := by
  induction rounds with
  | stop inside => exact ⟨long, same ▸ UInt64.lt_iff_toNat_lt.mp inside, rfl⟩
  | skip past _ ih =>
    rw [← toNat_sub_block long same past]
    exact ih (by omega) (toNat_mul_block same)

/-- The block does not become zero, where the rounds would go on without end: 26 to the power 64
is a multiple of 2 to the power 64, but the words do not go that far. -/
theorem skips_locate {n size : UInt64} {length : Nat} (long : 2 ≤ length)
    (same : size.toNat = block length) (bound : shorter length + n.toNat < 2 ^ 64) :
    Skips n size length (locate n size length).1 (locate n size length).2 := by
  fun_induction locate n size length with
  | case1 n size length skip ih =>
    refine .skip skip.2 (ih (by omega) (toNat_mul_block same) ?_)
    rwa [toNat_sub_block long same skip.2]
  | case2 n size length stop =>
    have positive : 0 < size.toNat :=
      same ▸ block_pos (length_le_of_shorter_lt (Nat.lt_of_le_of_lt (Nat.le_add_right _ _) bound))
    refine .stop (UInt64.lt_iff_toNat_lt.mpr (Nat.lt_of_not_le fun past => stop ⟨?_, ?_⟩))
    · exact UInt64.lt_iff_toNat_lt.mpr positive
    · exact UInt64.le_iff_toNat_le.mpr past

theorem exists_skips (n : UInt64) : ∃ offset length, Skips n (26 * 26) 2 offset length ∧
    Located n.toNat offset.toNat length ∧ candidate n = letters offset length := by
  have first : shorter 2 = 0 := by simp [shorter]
  have rounds : Skips n (26 * 26) 2 (locate n (26 * 26) 2).1 (locate n (26 * 26) 2).2 :=
    skips_locate le_rfl (by decide) (by simpa [first] using n.toNat_lt)
  have located := rounds.located le_rfl (by decide)
  rw [first, Nat.zero_add] at located
  exact ⟨_, _, rounds, located, rfl⟩

namespace Located

variable {m n offset offset' length length' : Nat}

theorem lt_shorter_succ (located : Located n offset length) : n < shorter (length + 1) :=
  calc n = shorter length + offset := located.position
    _ < shorter length + block length := Nat.add_lt_add_left located.inside _
    _ = shorter (length + 1) := (shorter_succ located.long).symm

theorem lt_of_length_lt (one : Located m offset length) (two : Located n offset' length')
    (less : length < length') : m < n :=
  calc m < shorter (length + 1) := one.lt_shorter_succ
    _ ≤ shorter length' := shorter_mono less
    _ ≤ n := two.position ▸ Nat.le_add_right _ _

/-- Numbers are in the order of their lengths, and of their offsets at the same length. -/
theorem lt_iff (one : Located m offset length) (two : Located n offset' length') :
    m < n ↔ length < length' ∨ length = length' ∧ offset < offset' := by
  rcases Nat.lt_trichotomy length length' with shorter | rfl | longer
  · simp [shorter, one.lt_of_length_lt two shorter]
  · simp [one.position, two.position]
  · have before := two.lt_of_length_lt one longer
    constructor <;> omega

theorem unique (one : Located n offset length) (two : Located n offset' length') :
    length = length' ∧ offset = offset' := by
  have forth := (one.lt_iff two).not.mp (Nat.lt_irrefl n)
  have back := (two.lt_iff one).not.mp (Nat.lt_irrefl n)
  omega

end Located

theorem candidate_of_located {n offset : UInt64} {length : Nat}
    (located : Located n.toNat offset.toNat length) : candidate n = letters offset length := by
  obtain ⟨other, last, _, found, same⟩ := exists_skips n
  obtain ⟨rfl, equal⟩ := found.unique located
  rw [same, UInt64.toNat_inj.mp equal]

/-- Alphabetical order is decided where two texts of the same length first differ. -/
theorem lex_append {s t : Name} (less : List.Lex (· < ·) s t) (same : s.length = t.length)
    (u v : Name) : List.Lex (· < ·) (s ++ u) (t ++ v) := by
  induction less with
  | nil => cases same
  | cons _ ih => exact .cons (ih (Nat.succ.inj same))
  | rel first => exact .rel first

theorem letters_succ (n : UInt64) (length : Nat) :
    letters n (length + 1) =
      letters (n / 26) length ++ [Char.ofNat ('a'.toNat + n.toNat % 26)] := by
  rw [letters, UInt64.toNat_mod]
  rfl

theorem ofNat_lt_ofNat {k l : Nat} (less : k < l) (bound : l < 26) :
    Char.ofNat ('a'.toNat + k) < Char.ofNat ('a'.toNat + l) := by
  have each : ∀ l < 26, ∀ k < l, Char.ofNat ('a'.toNat + k) < Char.ofNat ('a'.toNat + l) := by
    decide +kernel
  exact each l bound k less

theorem lex_letters {m n : UInt64} {length : Nat} (less : m.toNat < n.toNat)
    (bound : n.toNat < 26 ^ length) : List.Lex (· < ·) (letters m length) (letters n length) := by
  induction length generalizing m n with
  | zero => omega
  | succ length ih =>
    rw [letters_succ, letters_succ]
    have quotient : ∀ k : UInt64, (k / 26).toNat = k.toNat / 26 := fun k => UInt64.toNat_div k 26
    rcases Nat.lt_or_eq_of_le (Nat.div_le_div_right (c := 26) less.le) with earlier | same
    · have inside : n.toNat / 26 < 26 ^ length := Nat.div_lt_of_lt_mul (by rwa [← pow_succ'])
      rw [← quotient, ← quotient] at earlier
      rw [← quotient] at inside
      refine lex_append (ih earlier inside) ?_ _ _
      rw [(letters_spec _ _).1, (letters_spec _ _).1]
    · have prefixes : m / 26 = n / 26 := UInt64.toNat_inj.mp (by rw [quotient, quotient, same])
      rw [prefixes]
      refine List.Lex.append_left _ (.rel (ofNat_lt_ofNat ?_ (Nat.mod_lt _ (by decide)))) _
      omega

theorem shortlex_candidate {m n : UInt64} (less : m < n) :
    List.Shortlex (· < ·) (candidate m) (candidate n) := by
  obtain ⟨offset, length, _, one, here⟩ := exists_skips m
  obtain ⟨offset', length', _, two, there⟩ := exists_skips n
  rw [here, there, List.shortlex_def, (letters_spec _ _).1, (letters_spec _ _).1]
  rcases (one.lt_iff two).mp (UInt64.lt_iff_toNat_lt.mp less) with shorter | ⟨rfl, before⟩
  · exact .inl shorter
  · exact .inr ⟨rfl, lex_letters before (two.inside.trans_le (block_le _))⟩

theorem not_shortlex_self (w : Name) : ¬List.Shortlex (· < ·) w w :=
  fun before => Std.Asymm.asymm _ _ before before

theorem candidate_injective : Function.Injective candidate := by
  intro m n same
  rcases Nat.lt_trichotomy m.toNat n.toNat with less | equal | greater
  · have before := shortlex_candidate (UInt64.lt_iff_toNat_lt.mpr less)
    exact absurd (same ▸ before) (not_shortlex_self _)
  · exact UInt64.toNat_inj.mp equal
  · have before := shortlex_candidate (UInt64.lt_iff_toNat_lt.mpr greater)
    exact absurd (same ▸ before) (not_shortlex_self _)

/-- Numbers below the wrap-around have different candidates. -/
theorem injOn_candidate : Set.InjOn (fun k => candidate (UInt64.ofNat k)) (Set.Iio (2 ^ 64)) := by
  intro k small l small' same
  have words := congrArg UInt64.toNat (candidate_injective same)
  rwa [UInt64.toNat_ofNat_of_lt' small, UInt64.toNat_ofNat_of_lt' small'] at words

theorem shortlex_candidate_ofNat {k l : Nat} (less : k < l) (fits : l < 2 ^ 64) :
    List.Shortlex (· < ·) (candidate (UInt64.ofNat k)) (candidate (UInt64.ofNat l)) := by
  apply shortlex_candidate
  rwa [UInt64.lt_iff_toNat_lt, UInt64.toNat_ofNat_of_lt' fits,
    UInt64.toNat_ofNat_of_lt' (less.trans fits)]

theorem exists_ofNat_of_isLetter {c : Char} (letter : Text.isLetter c = true) :
    ∃ k < 26, c = Char.ofNat ('a'.toNat + k) := by
  simp only [Text.isLetter, Bool.and_eq_true, decide_eq_true_eq] at letter
  have low : 'a'.toNat ≤ c.toNat := letter.1
  have high : c.toNat ≤ 'z'.toNat := letter.2
  have last : 'z'.toNat = 'a'.toNat + 25 := rfl
  refine ⟨c.toNat - 'a'.toNat, by omega, ?_⟩
  rw [Nat.add_sub_cancel' low, Char.ofNat_toNat]

/-- Every text of letters that is short enough is written for some number. -/
theorem exists_letters {w : Name} (lettered : ∀ c ∈ w, Text.isLetter c = true)
    (short : w.length ≤ 13) : ∃ n : UInt64, n.toNat < 26 ^ w.length ∧ letters n w.length = w := by
  induction w using List.reverseRecOn with
  | nil => exact ⟨0, by simp, rfl⟩
  | append_singleton w c ih =>
    rw [List.length_append, List.length_singleton] at short ⊢
    obtain ⟨n, bound, same⟩ := ih (fun d member => lettered d (by simp [member])) (by omega)
    obtain ⟨k, small, rfl⟩ := exists_ofNat_of_isLetter (lettered c (by simp))
    have inside : 26 * n.toNat + k < 26 ^ (w.length + 1) := by
      rw [pow_succ]
      omega
    have value : (UInt64.ofNat (26 * n.toNat + k)).toNat = 26 * n.toNat + k :=
      UInt64.toNat_ofNat_of_lt' (inside.trans (pow_lt_of_short short))
    refine ⟨UInt64.ofNat (26 * n.toNat + k), by rwa [value], ?_⟩
    have quotient : UInt64.ofNat (26 * n.toNat + k) / 26 = n := by
      apply UInt64.toNat_inj.mp
      rw [UInt64.toNat_div, value]
      simp
      omega
    rw [letters_succ, quotient, same, value]
    congr 3
    omega

theorem toNat_lt_of_length_le {n : UInt64} (short : (candidate n).length ≤ 13) :
    n.toNat < shorter 14 := by
  obtain ⟨offset, length, _, located, same⟩ := exists_skips n
  rw [same, (letters_spec _ _).1] at short
  exact located.lt_shorter_succ.trans_le (shorter_mono (by omega))

theorem length_le_of_toNat_lt {n : UInt64} (early : n.toNat < shorter 14) :
    (candidate n).length ≤ 13 := by
  obtain ⟨offset, length, _, located, same⟩ := exists_skips n
  rw [same, (letters_spec _ _).1]
  by_contra long
  have all : shorter 14 ≤ shorter length := shorter_mono (by omega)
  have position := located.position
  omega

/-- Where the blocks are right, every name is a candidate. -/
theorem exists_candidate {w : Name} (named : Text.isName w = true) (short : w.length ≤ 13) :
    ∃ n, candidate n = w := by
  obtain ⟨long, run⟩ := Text.isName_iff.mp named
  obtain ⟨offset, bound, same⟩ := exists_letters run.letters short
  rw [← block_of_short short] at bound
  have located : Located (shorter w.length + offset.toNat) offset.toNat w.length :=
    ⟨long, bound, rfl⟩
  have fits : shorter w.length + offset.toNat < 2 ^ 64 :=
    calc shorter w.length + offset.toNat < shorter (w.length + 1) := located.lt_shorter_succ
      _ ≤ shorter 14 := shorter_mono (by omega)
      _ < 2 ^ 64 := by decide +kernel
  rw [← UInt64.toNat_ofNat_of_lt' fits] at located
  exact ⟨_, (candidate_of_located located).trans same⟩

/-- The names before a candidate are the candidates before it. -/
theorem before_candidate {n : UInt64} (early : n.toNat < shorter 14) :
    {w : Name | Text.isName w = true ∧ List.Shortlex (· < ·) w (candidate n)} =
      (fun k => candidate (UInt64.ofNat k)) '' (Finset.range n.toNat) := by
  ext w
  simp only [Set.mem_ofPred_eq, Set.mem_image, Finset.coe_range, Set.mem_Iio]
  constructor
  · rintro ⟨named, before⟩
    have short : w.length ≤ 13 := by
      have bound := length_le_of_toNat_lt early
      rcases List.shortlex_def.mp before with shorter | ⟨same, _⟩ <;> omega
    obtain ⟨m, rfl⟩ := exists_candidate named short
    refine ⟨m.toNat, ?_, by simp⟩
    by_contra late
    rcases Nat.lt_or_eq_of_le (Nat.le_of_not_lt late) with after | same
    · exact Std.Asymm.asymm _ _ before (shortlex_candidate (UInt64.lt_iff_toNat_lt.mpr after))
    · rw [UInt64.toNat_inj.mp same] at before
      exact not_shortlex_self _ before
  · rintro ⟨k, less, rfl⟩
    refine ⟨isName_candidate _, ?_⟩
    simpa using shortlex_candidate_ofNat less n.toNat_lt

theorem encard_before_candidate {n : UInt64} (early : n.toNat < shorter 14) :
    {w : Name | Text.isName w = true ∧ List.Shortlex (· < ·) w (candidate n)}.encard =
      n.toNat := by
  have distinct : Set.InjOn (fun k => candidate (UInt64.ofNat k)) (Finset.range n.toNat) :=
    injOn_candidate.mono fun k member => (Finset.mem_range.mp member).trans n.toNat_lt
  rw [before_candidate early, distinct.encard_image, Set.encard_coe_eq_coe_finsetCard,
    Finset.card_range]

/-- The rounds that find the length of a candidate end for every word of 64 bits, though the
blocks wrap around. Candidates are names and come by length and then in alphabetical order.
Up to length 13 each of them is the one with as many names before it as its number says, and
no name is left out. -/
theorem candidate_enumerates :
    (∀ n, ∃ offset length, Skips n (26 * 26) 2 offset length ∧
      candidate n = letters offset length ∧ Text.isName (candidate n) = true) ∧
    (∀ m n, m < n → List.Shortlex (· < ·) (candidate m) (candidate n)) ∧
    Function.Injective candidate ∧
    (∀ n : UInt64, n.toNat < ∑ k ∈ Finset.Ico 2 14, 26 ^ k →
      {w : Name | Text.isName w = true ∧ List.Shortlex (· < ·) w (candidate n)}.encard =
        n.toNat) ∧
    ∀ w : Name, Text.isName w = true → w.length ≤ 13 →
      ∃ n : UInt64, n.toNat < ∑ k ∈ Finset.Ico 2 14, 26 ^ k ∧ candidate n = w := by
  rw [← shorter_of_short le_rfl]
  refine ⟨?_, fun m n => shortlex_candidate, candidate_injective,
    fun n => encard_before_candidate, ?_⟩
  · intro n
    obtain ⟨offset, length, rounds, _, same⟩ := exists_skips n
    exact ⟨offset, length, rounds, same, isName_candidate n⟩
  · intro w named short
    obtain ⟨n, rfl⟩ := exists_candidate named short
    exact ⟨n, toNat_lt_of_length_le short, rfl⟩

/-- The last candidate of length 14, far from the last name of that length, and the first of
length 15. -/
theorem candidate_enumerates_wrapped :
    candidate 11750141470300382139 = "dscirbngvdqocd".toList ∧
      candidate 11750141470300382140 = "aaaaaaaaaaaaaaa".toList ∧
      List.Shortlex (· < ·) (candidate 11750141470300382139) (candidate 11750141470300382140) := by
  have last :
      Located (11750141470300382139 : UInt64).toNat (9169742482168496127 : UInt64).toNat 14 :=
    ⟨by decide, by decide +kernel, by decide +kernel⟩
  have first : Located (11750141470300382140 : UInt64).toNat (0 : UInt64).toNat 15 :=
    ⟨by decide, by decide +kernel, by decide +kernel⟩
  refine ⟨?_, ?_, candidate_enumerates.2.1 _ _ (by decide)⟩
  · rw [candidate_of_located last]
    decide +kernel
  · rw [candidate_of_located first]
    decide +kernel

end Turnstile.Name
