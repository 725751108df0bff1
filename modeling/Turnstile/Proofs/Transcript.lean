import Turnstile.Proofs.History
import Turnstile.Proofs.Listing

/-! What a search prints can be read. The members of every visited sequent come from those of
the goal by taking parts and instances, so they can be read back if those of the goal can. -/
namespace Turnstile

theorem Sequent.Derived.listable {s : Sequent} {witness : Option Name} {f : Formula}
    (derived : s.Derived witness f) (named : ∀ name ∈ witness, Text.isName name = true)
    (listable : s.Listable) : f.Listable := by
  cases derived with
  | member among => exact listable f among
  | part among child => exact (listable _ among).child child
  | applied among chosen => exact (listable _ among).instantiate (named _ chosen)

theorem Search.keeps_listable :
    KeepsSupply (fun s _ => s.Listable)
      (fun _ moments _ => ∀ s, .visited s ∈ moments → s.Listable) where
  refl s member := by simp at member
  trans one two s member := (List.mem_append.mp member).elim (one s) (two s)
  stable _ admitted := admitted
  visited admitted s member := by
    obtain rfl : s = _ := by simpa using member
    exact admitted
  issued _ _ s member := by simp at member
  parents admitted decomposed leaf leafed parent inside f among :=
    (decomposed.derived leafed inside among).listable
      (fun _ => decomposed.isName_witness leafed) admitted

namespace Session

/-- If the parentheses of every member of a goal are matched, then every sequent that a search
visits is read from its own text, and so are those in the trace and the counter-sequent. -/
theorem read_render_of_visited (session : Session) (clock : Clock) {line : Nat} {input : Text}
    {goal : Sequent} (success : Sequent.read line input = .ok goal)
    (balanced : ∀ side ∈ Text.split Sequent.turnstile input, ∀ piece ∈ Text.split [','] side,
      Text.Balanced piece) (other : Nat) :
    (∀ s, .visited s ∈ session.history clock goal → Sequent.read other s.render = .ok s) ∧
    (∀ entry ∈ (session.prove clock goal).1.trace, ∀ s, entry.event.sequent? = some s →
      Sequent.read other s.render = .ok s) ∧
    (∀ s, (session.prove clock goal).1.counter = some s → Sequent.read other s.render = .ok s) ∧
    (session.prove clock goal).1.statistics.expanded =
      ((session.history clock goal).filterMap Moment.sequent?).length := by
  have listable := Sequent.listable_of_parse (mapError_eq_ok_iff.mp success) balanced
  have visited : ∀ s, .visited s ∈ session.history clock goal →
      Sequent.read other s.render = .ok s := by
    intro s member
    have kept := history_of_keeps Search.keeps_listable listable s member
    exact mapError_eq_ok_iff.mpr (Sequent.parse_render kept)
  refine ⟨visited, ?_, ?_, session.expanded_eq clock goal⟩
  · intro entry member s about
    exact visited s (visited_of_trace member about)
  · intro s found
    exact visited s (visited_of_counter found)

/-- The instance of the first atom starts with a symbol and a placeholder. -/
theorem read_render_of_visited_instance :
    let input := "exists <x> (∀<x> sings  and p(<x> or <bo>)) |~ ~b,forall <y> <y> runs".toList
    let goal : Sequent :=
      ⟨[.quant .ex ['x']
          (.bin .conj (.atom "∀<x> sings".toList) (.atom "p(<x> or <bo>)".toList))],
        [.atom "~b".toList, .quant .all ['y'] (.atom "<y> runs".toList)]⟩
    Sequent.read 1 input = .ok goal ∧
      ∀ s, .visited s ∈ history {} (fun _ => 0) goal → Sequent.read 2 s.render = .ok s := by
  intro input goal
  have success : Sequent.read 1 input = .ok goal := by decide +kernel
  exact ⟨success, (read_render_of_visited {} (fun _ => 0) success (by decide +kernel) 2).1⟩

end Session
end Turnstile
