import Turnstile.Proofs.Nesting
import Turnstile.Word

/-! A text read word by word. Whatever is looked at ahead, the words come one after the other, each
with its number and depth, and then the end comes for good. The words are the runs without a blank
that cannot be made longer, in the order in which they stand in the text. -/
namespace Turnstile

namespace Text

theorem balance_blanks {t : Text} (blanks : ∀ c ∈ t, isBlank c = true) : balance t = 0 := by
  rw [← balance_parens, parens_of_blanks blanks]
  rfl

namespace Leads

variable {gap w rest : Text} (leads : Leads gap w rest)
include leads

theorem balance_eq (t : Text) : balance (gap ++ w ++ t) = balance w + balance t := by
  rw [balance_append, balance_append, balance_blanks leads.blanks, Int.zero_add]

theorem balance_take (n : Nat) :
    balance ((gap ++ w ++ rest).take ((gap ++ w).length + n)) =
      balance w + balance (rest.take n) := by
  rw [List.take_length_add_append, leads.balance_eq]

theorem trimStart_eq : trimStart (gap ++ w ++ rest) = w ++ rest := by
  rw [List.append_assoc]
  refine dropWhile_blanks leads.blanks ?_
  rw [List.head?_append_of_ne_nil _ leads.word.proper]
  exact fun c member => leads.word.solid c (List.mem_of_head? member)

theorem takeWhile_eq : (w ++ rest).takeWhile (!isBlank ·) = w := by
  rw [List.takeWhile_append_of_pos (by simpa using leads.word.solid)]
  cases rest with
  | nil => simp
  | cons c rest =>
    have blank : isBlank c = true := by simpa using leads.boundary
    simp [blank]

theorem dropWhile_eq : (w ++ rest).dropWhile (!isBlank ·) = rest := by
  rw [List.dropWhile_append_of_pos (by simpa using leads.word.solid)]
  cases rest with
  | nil => rfl
  | cons c rest =>
    have blank : isBlank c = true := by simpa using leads.boundary
    simp [blank]

end Leads

/-- A word that cannot be made longer starts at this place. -/
def WordAt (t : Text) (start : Nat) (w : Text) : Prop :=
  ∃ before after, t = before ++ w ++ after ∧ before.length = start ∧ IsWord w ∧
    before.getLast?.all isBlank = true ∧ after.head?.all isBlank = true

theorem not_wordAt_of_blanks {t w : Text} {start : Nat} (blanks : ∀ c ∈ t, isBlank c = true) :
    ¬WordAt t start w := by
  rintro ⟨before, after, rfl, _, word, _⟩
  obtain ⟨c, w, rfl⟩ := List.exists_cons_of_ne_nil word.proper
  have blank := blanks c (by simp)
  simp [word.solid c (by simp)] at blank

theorem Leads.wordAt {gap w rest : Text} (leads : Leads gap w rest) :
    WordAt (gap ++ w ++ rest) gap.length w := by
  refine ⟨gap, rest, rfl, rfl, leads.word, ?_, leads.boundary⟩
  cases last : gap.getLast? with
  | none => rfl
  | some c => exact leads.blanks c (List.mem_of_getLast? last)

/-- Words further on are words of what follows the first one. -/
theorem Leads.wordAt_of_rest {gap w rest v : Text} {start : Nat} (leads : Leads gap w rest)
    (later : WordAt rest start v) : WordAt (gap ++ w ++ rest) (start + (gap ++ w).length) v := by
  obtain ⟨before, after, rfl, rfl, word, front, back⟩ := later
  refine ⟨gap ++ w ++ before, after, by simp, ?_, word, ?_, back⟩
  · rw [List.length_append, Nat.add_comm]
  · have more : before ≠ [] := by
      rintro rfl
      obtain ⟨c, v, rfl⟩ := List.exists_cons_of_ne_nil word.proper
      have blank : isBlank c = true := by simpa using leads.boundary
      simp [word.solid c (by simp)] at blank
    rwa [List.getLast?_append_of_ne_nil _ more]

/-- The first word is found at the end of the gap, since it is solid and a blank or the end follows
it, and all others are found in the rest. -/
theorem Leads.wordAt_iff {gap w rest v : Text} {start : Nat} (leads : Leads gap w rest) :
    WordAt (gap ++ w ++ rest) start v ↔
      start = gap.length ∧ v = w ∨
        ∃ further, WordAt rest further v ∧ start = further + (gap ++ w).length := by
  constructor
  · rintro ⟨before, after, same, rfl, word, front, back⟩
    have first (parts : v ++ after = w ++ rest) : v = w := by
      have lists := congrArg words parts
      rw [words_append_of_isWord word back, words_append_of_isWord leads.word leads.boundary] at lists
      exact (List.cons.inj lists).1
    rw [List.append_assoc before] at same
    rcases List.append_eq_append_iff.mp same with ⟨inside, rfl, parts⟩ | ⟨tail, parts, later⟩
    · refine .inr ⟨inside.length, ⟨inside, after, by simp [parts], rfl, word, ?_, back⟩,
        by rw [List.length_append, Nat.add_comm]⟩
      by_cases none : inside = []
      · simp [none]
      · rwa [List.getLast?_append_of_ne_nil _ none] at front
    · refine .inl ?_
      rcases List.append_eq_append_iff.mp parts with ⟨inside, rfl, rfl⟩ | ⟨inside, rfl, rfl⟩
      -- Before the end of the first word no other one starts, since its characters are solid.
      · obtain rfl | ⟨start, c, rfl⟩ := List.eq_nil_or_concat inside
        · exact ⟨by simp, first later⟩
        · have blank : isBlank c = true := by simpa using front
          simp [leads.word.solid c (by simp)] at blank
      -- Nor does one start in the gap.
      · obtain ⟨c, v, rfl⟩ := List.exists_cons_of_ne_nil word.proper
        cases inside with
        | nil => exact ⟨by simp, first later⟩
        | cons d inside =>
          obtain rfl := (List.cons.inj later).1
          have blank := leads.blanks c (by simp)
          simp [word.solid c (by simp)] at blank
  · rintro (⟨rfl, rfl⟩ | ⟨further, later, rfl⟩)
    · exact leads.wordAt
    · exact leads.wordAt_of_rest later

end Text

namespace Token

@[simp] theorem length_ofWords (index : Nat) (depth : Int) (ws : List Text) :
    (ofWords index depth ws).length = ws.length := by
  rw [← List.length_map Token.text, map_text_ofWords]

theorem map_index_ofWords (index : Nat) (depth : Int) (ws : List Text) :
    (ofWords index depth ws).map Token.index = List.range' index ws.length := by
  induction ws generalizing index depth with
  | nil => rfl
  | cons w ws ih => simp [ofWords, ofWord, ih, List.range'_succ]

/-- The words start at the places of their tokens and nowhere else. The depth of a token is reached
where its word ends. -/
theorem exists_starts (index : Nat) (depth : Int) (t : Text) :
    ∃ starts : List Nat, starts.Pairwise (· < ·) ∧
      (∀ start, start ∈ starts ↔ ∃ w, t.WordAt start w) ∧
      List.Forall₂ (fun start token => t.WordAt start token.text ∧
        token.kind = .ofWord token.text ∧
        token.depth = depth + Text.balance (t.take (start + token.text.length)))
        starts (ofWords index depth t.words) := by
  induction t using Text.words_induction generalizing index depth with
  | blank t blanks =>
    refine ⟨[], .nil, ?_, ?_⟩
    · simp [Text.not_wordAt_of_blanks blanks]
    · rw [Text.words_eq_nil blanks]
      exact .nil
  | word gap w rest leads ih =>
    obtain ⟨starts, increasing, places, tokens⟩ := ih (index + 1) (depth + Text.balance w)
    have positive := List.length_pos_iff.mpr leads.word.proper
    refine ⟨gap.length :: starts.map (· + (gap ++ w).length), ?_, ?_, ?_⟩
    · refine List.pairwise_cons.mpr ⟨?_, List.pairwise_map.mpr (increasing.imp ?_)⟩
      · intro start member
        obtain ⟨further, _, rfl⟩ := List.mem_map.mp member
        rw [List.length_append]
        omega
      · intro a b less
        exact Nat.add_lt_add_right less _
    · intro start
      simp only [leads.wordAt_iff, List.mem_cons, List.mem_map, places]
      constructor
      · rintro (rfl | ⟨further, ⟨v, later⟩, rfl⟩)
        · exact ⟨w, .inl ⟨rfl, rfl⟩⟩
        · exact ⟨v, .inr ⟨further, later, rfl⟩⟩
      · rintro ⟨v, ⟨rfl, rfl⟩ | ⟨further, later, rfl⟩⟩
        · exact .inl rfl
        · exact .inr ⟨further, ⟨v, later⟩, rfl⟩
    · rw [leads.words_eq, ofWords]
      refine .cons ⟨leads.wordAt, rfl, ?_⟩ (List.forall₂_map_left_iff.mpr (tokens.imp ?_))
      · have ends := leads.balance_take 0
        rw [Nat.add_zero, List.length_append, List.take_zero] at ends
        rw [ofWord, ends]
        simp [Text.balance]
      · rintro start token ⟨later, kind, reached⟩
        refine ⟨leads.wordAt_of_rest later, kind, ?_⟩
        rw [Nat.add_comm start, Nat.add_assoc, leads.balance_take, reached, Int.add_assoc]

end Token

namespace Cursor

/-- What is asked of a cursor. -/
inductive Call where
  | next | peek
deriving DecidableEq

def move (cursor : Cursor) : Call → Cursor
  | .next => cursor.next.2
  | .peek => cursor.peek.2

/-- The cursor after the calls, from the first to the last. -/
def after (cursor : Cursor) (calls : List Call) : Cursor := calls.foldl move cursor

/-- The tokens from here on, whatever was looked at, and then the end again and again. -/
def upcoming (cursor : Cursor) (k : Nat) : Token :=
  (Token.ofWords cursor.index cursor.depth cursor.rest.words)[k]?.getD
    ⟨.finish, [], cursor.index + cursor.rest.words.length,
      cursor.depth + Text.balance cursor.rest⟩

/-- What the next calls will return, one after the other. -/
def stream (cursor : Cursor) : Nat → Token :=
  match cursor.ahead with
  | none => cursor.upcoming
  | some token => fun k => if k = 0 then token else cursor.upcoming (k - 1)

theorem advance_of_blanks {cursor : Cursor} (blanks : ∀ c ∈ cursor.rest, Text.isBlank c = true) :
    cursor.advance = (⟨.finish, [], cursor.index, cursor.depth⟩, { cursor with rest := [] }) := by
  have none : Text.trimStart cursor.rest = [] := List.dropWhile_eq_nil_iff.mpr blanks
  rw [advance, none]

theorem advance_of_leads {cursor : Cursor} {gap w rest : Text} (leads : Text.Leads gap w rest)
    (text : cursor.rest = gap ++ w ++ rest) :
    cursor.advance = (Token.ofWord cursor.index cursor.depth w,
      { cursor with
        rest := rest
        index := cursor.index + 1
        depth := cursor.depth + Text.balance w }) := by
  have some : w ++ rest ≠ [] := by simp [leads.word.proper]
  rw [advance, text, leads.trimStart_eq]
  split
  · next none => exact absurd none some
  · rw [leads.takeWhile_eq, leads.dropWhile_eq]
    rfl

/-- One word is read, and nothing else is lost. -/
theorem upcoming_advance (cursor : Cursor) :
    cursor.advance.1 = cursor.upcoming 0 ∧ cursor.advance.2.ahead = cursor.ahead ∧
      ∀ k, cursor.advance.2.upcoming k = cursor.upcoming (k + 1) := by
  obtain ⟨rest, index, depth, ahead⟩ := cursor
  induction rest using Text.words_induction with
  | blank t blanks =>
    rw [advance_of_blanks blanks]
    simp [upcoming, Text.words_eq_nil blanks, Text.balance_blanks blanks, Token.ofWords,
      Text.balance]
  | word gap w rest leads _ =>
    rw [advance_of_leads leads rfl]
    refine ⟨?_, rfl, fun k => ?_⟩
    · simp only [upcoming, leads.words_eq, Token.ofWords, List.getElem?_cons_zero,
        Option.getD_some]
    · simp only [upcoming, leads.words_eq, Token.ofWords, Token.ofWord, leads.balance_eq,
        List.getElem?_cons_succ, List.length_cons, Int.add_assoc, Nat.add_assoc, Nat.add_comm 1]

theorem stream_of_none {cursor : Cursor} (none : cursor.ahead = none) :
    cursor.stream = cursor.upcoming := by
  rw [stream, none]

theorem stream_of_some {cursor : Cursor} {token : Token} (some : cursor.ahead = some token) :
    cursor.stream 0 = token ∧ ∀ k, cursor.stream (k + 1) = cursor.upcoming k := by
  rw [stream, some]
  exact ⟨rfl, fun k => rfl⟩

theorem stream_next (cursor : Cursor) :
    cursor.next.1 = cursor.stream 0 ∧ ∀ k, cursor.next.2.stream k = cursor.stream (k + 1) := by
  unfold next
  split
  · next token ahead =>
    obtain ⟨first, later⟩ := stream_of_some ahead
    exact ⟨first.symm, fun k => (later k).symm⟩
  · next ahead =>
    obtain ⟨first, same, later⟩ := upcoming_advance cursor
    rw [stream_of_none ahead, stream_of_none (same.trans ahead)]
    exact ⟨first, later⟩

theorem stream_peek (cursor : Cursor) :
    cursor.peek.1 = cursor.stream 0 ∧ cursor.peek.2.stream = cursor.stream := by
  unfold peek
  split
  · next token ahead => exact ⟨(stream_of_some ahead).1.symm, rfl⟩
  · next ahead =>
    obtain ⟨first, _, later⟩ := upcoming_advance cursor
    rw [stream_of_none ahead]
    refine ⟨first, funext fun k => ?_⟩
    cases k with
    | zero => exact first
    | succ k => exact later k

/-- Only the calls that take a token move the stream on. -/
theorem stream_after (cursor : Cursor) (calls : List Call) (k : Nat) :
    (cursor.after calls).stream k = cursor.stream (calls.count .next + k) := by
  induction calls generalizing cursor with
  | nil => rw [List.count_nil, Nat.zero_add]; rfl
  | cons call calls ih =>
    refine (ih (cursor.move call)).trans ?_
    cases call with
    | next =>
      rw [List.count_cons_self, Nat.add_right_comm]
      exact (stream_next cursor).2 _
    | peek =>
      rw [List.count_cons_of_ne (by decide)]
      exact congrFun (stream_peek cursor).2 _

theorem stream_ofText (t : Text) (k : Nat) : (ofText t).stream k =
    (Token.ofText t)[k]?.getD ⟨.finish, [], (Token.ofText t).length, Text.balance t⟩ := by
  rw [stream_of_none rfl, upcoming, Token.ofText, Token.length_ofWords]
  simp [ofText]

/-- However the calls follow each other, the tokens come in order, nothing that was looked at is
lost or comes twice, and after the last one comes the end. The tokens are those of the longest runs
without a blank, numbered from left to right, with the depth reached at the end of each of them.
Single spaces between the words give the same tokens again. -/
theorem reads_words_in_order (t : Text) :
    (∀ calls : List Call, ((ofText t).after calls).next.1 =
      (Token.ofText t)[calls.count .next]?.getD
        ⟨.finish, [], (Token.ofText t).length, Text.balance t⟩) ∧
    (∀ (calls : List Call) (more : Nat), ((ofText t).after calls).peek.1 =
      ((ofText t).after (calls ++ List.replicate (more + 1) Call.peek)).next.1) ∧
    (∃ starts : List Nat, starts.Pairwise (· < ·) ∧
      (∀ start, start ∈ starts ↔ ∃ w, t.WordAt start w) ∧
      List.Forall₂ (fun start token => t.WordAt start token.text ∧
        token.kind = .ofWord token.text ∧
        token.depth = Text.balance (t.take (start + token.text.length)))
        starts (Token.ofText t)) ∧
    (Token.ofText t).map Token.index = List.range (Token.ofText t).length ∧
    Token.ofText (Token.slice (Token.ofText t) 0 (Token.ofText t).length) = Token.ofText t := by
  refine ⟨?_, ?_, ?_, ?_, ?_⟩
  · intro calls
    rw [(stream_next _).1, stream_after, stream_ofText, Nat.add_zero]
  · intro calls more
    rw [(stream_next _).1, (stream_peek _).1, stream_after, stream_after, List.count_append,
      List.count_replicate]
    rfl
  · simpa only [Int.zero_add, Token.ofText] using Token.exists_starts 0 0 t
  · rw [Token.ofText, Token.map_index_ofWords, Token.length_ofWords, List.range_eq_range']
  · rw [Token.slice, List.take_length, List.drop_zero, Token.map_text_ofText, Token.ofText,
      Text.words_unwords fun w member => Text.isWord_of_mem_words member, Token.ofText]

example : ((ofText "(p q)".toList).after [.peek, .next, .peek, .peek, .next, .peek]).next.1 =
    ⟨.finish, [], 2, 0⟩ := by decide

end Cursor

end Turnstile
