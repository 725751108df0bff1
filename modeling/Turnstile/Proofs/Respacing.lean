import Turnstile.Proofs.Faults

/-! Other blanks between the same words. A layer is found by the words of a text and its
operands are set with single spaces, so the blanks of the text are not seen again, unless
all of it is one atom. -/
namespace Turnstile

namespace Layer

/-- The same layer, or two atoms with the same words. -/
inductive Respaced : Layer → Layer → Prop where
  | refl (layer : Layer) : Respaced layer layer
  | atom {s t : Text} (same : Text.words s = Text.words t) : Respaced (.atom s) (.atom t)

theorem Reading.respace {s t : Text} {layer : Layer} (reading : Reading s layer)
    (same : Text.words s = Text.words t) : ∃ other, Reading t other ∧ Respaced layer other := by
  cases reading with
  | atom unled undivided =>
    rw [same] at unled undivided
    exact ⟨_, .atom unled undivided, .atom same⟩
  | neg leads undivided proper =>
    rw [same] at leads undivided
    exact ⟨_, .neg leads undivided proper, .refl _⟩
  | quant leads undivided letter scope proper =>
    rw [same] at leads undivided
    exact ⟨_, .quant leads undivided letter scope proper, .refl _⟩
  | bin parts spelled flat undivided glued leftProper rightProper =>
    rw [same] at parts glued
    exact ⟨_, .bin parts spelled flat undivided glued leftProper rightProper, .refl _⟩

theorem read_respaced {s t : Text} {layer : Layer} (same : Text.words s = Text.words t)
    (success : read s = .ok layer) : ∃ other, read t = .ok other ∧ Respaced layer other := by
  obtain ⟨some, reading⟩ := read_eq_ok_iff.mp success
  have stripped := Text.words_strip_congr same
  obtain ⟨other, second, respaced⟩ := reading.respace stripped
  refine ⟨other, read_eq_ok_iff.mpr ⟨?_, second⟩, respaced⟩
  rw [ne_eq, Text.strip_eq_nil_iff, ← stripped, ← Text.strip_eq_nil_iff]
  exact some

end Layer

namespace Formula

/-- The kind of a fault is known from what is left of the text. -/
theorem Faulted.kind_eq {t : Text} {fault : Fault} (faulted : Faulted t fault) :
    fault.kind = if Text.words (Text.strip t) = [] then .emptyText else .malformed := by
  rcases faulted.spec with ⟨none, rfl⟩ | ⟨some, kind, _⟩
  · rw [if_pos (Text.strip_eq_nil_iff.mp none)]
    rfl
  · rw [if_neg (Text.strip_eq_nil_iff.not.mp some), kind]

theorem parse_respaced {s t : Text} {f : Formula} (same : Text.words s = Text.words t)
    (success : parse s = .ok f) :
    ∃ g, parse t = .ok g ∧
      (f = g ∨ ∃ a b, f = .atom a ∧ g = .atom b ∧ Text.words a = Text.words b) := by
  -- An operator has the same operands in both texts, and reading goes on from these.
  cases parse_eq_ok_iff.mp success with
  | atom layer =>
    obtain ⟨_, second, respaced⟩ := Layer.read_respaced same layer
    cases respaced with
    | refl => exact ⟨_, parse_eq_ok_iff.mpr (.atom second), .inl rfl⟩
    | atom words => exact ⟨_, parse_eq_ok_iff.mpr (.atom second), .inr ⟨_, _, rfl, rfl, words⟩⟩
  | neg layer body =>
    obtain ⟨_, second, ⟨⟩⟩ := Layer.read_respaced same layer
    exact ⟨_, parse_eq_ok_iff.mpr (.neg second body), .inl rfl⟩
  | bin layer left right =>
    obtain ⟨_, second, ⟨⟩⟩ := Layer.read_respaced same layer
    exact ⟨_, parse_eq_ok_iff.mpr (.bin second left right), .inl rfl⟩
  | quant layer body =>
    obtain ⟨_, second, ⟨⟩⟩ := Layer.read_respaced same layer
    exact ⟨_, parse_eq_ok_iff.mpr (.quant second body), .inl rfl⟩

/-- Of the blanks in a text only those inside of a single atom can be told apart. -/
theorem read_of_same_words {s t : Text} (same : Text.words s = Text.words t) (line other : Nat) :
    (∃ first second, read line s = .error ⟨line, first⟩ ∧ read other t = .error ⟨other, second⟩ ∧
      first.kind = second.kind) ∨
    ∃ f g, read line s = .ok f ∧ read other t = .ok g ∧
      (f = g ∨ ∃ a b, f = .atom a ∧ g = .atom b ∧ Text.words a = Text.words b) := by
  cases first : parse s with
  | ok f =>
    obtain ⟨g, second, respaced⟩ := parse_respaced same first
    exact .inr ⟨f, g, mapError_eq_ok_iff.mpr first, mapError_eq_ok_iff.mpr second, respaced⟩
  | error fault =>
    cases second : parse t with
    | ok g =>
      obtain ⟨f, success, _⟩ := parse_respaced same.symm second
      rw [first] at success
      cases success
    | error another =>
      refine .inl ⟨fault, another, read_of_fault first line, read_of_fault second other, ?_⟩
      rw [(faulted_of_parse first).kind_eq, (faulted_of_parse second).kind_eq,
        Text.words_strip_congr same]

/-- The blanks in an atom do not count once it is an operand. -/
theorem read_of_same_words_compound :
    let s : Text := "( not  ( a\t b)\x0b& c \n)".toList
    let t : Text := "( not ( a b) & c )".toList
    let f : Formula := .neg (.bin .conj (.atom "a b".toList) (.atom "c".toList))
    Text.words s = Text.words t ∧ read 1 s = .ok f ∧ read 2 t = .ok f := by
  intro s t f
  have same : Text.words s = Text.words t := by decide
  have first : read 1 s = .ok f := by decide +kernel
  refine ⟨same, first, ?_⟩
  obtain ⟨_, _, failed, _⟩ | ⟨g, h, success, second, respaced⟩ := read_of_same_words same 1 2
  · cases first.symm.trans failed
  · cases first.symm.trans success
    obtain rfl | ⟨_, _, atom, _⟩ := respaced
    · exact second
    · cases show Formula.neg _ = .atom _ from atom

end Formula
end Turnstile
