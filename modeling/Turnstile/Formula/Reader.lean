import Turnstile.Formula.Layer

/-! Reading a formula layer by layer. -/
namespace Turnstile.Formula

/-- Reads the operands of a layer from left to right. The first fault found is
the fault of the whole. -/
def parse (input : Text) : Except Fault Formula :=
  match _success : Layer.read input with
  | .error fault => .error fault
  | .ok (.atom text) => .ok (.atom text)
  | .ok (.neg operand) => (parse operand).map .neg
  | .ok (.bin c left right) => do
    let left ← parse left
    let right ← parse right
    return .bin c left right
  | .ok (.quant q var body) => (parse body).map (.quant q var)
termination_by input.length
decreasing_by all_goals exact Layer.length_operand_lt ‹_› (by simp [Layer.operands])

theorem parse_eq (input : Text) :
    parse input = match Layer.read input with
      | .error fault => .error fault
      | .ok (.atom text) => .ok (.atom text)
      | .ok (.neg operand) => (parse operand).map .neg
      | .ok (.bin c left right) => do
        let left ← parse left
        let right ← parse right
        return .bin c left right
      | .ok (.quant q var body) => (parse body).map (.quant q var) := by
  rw [parse]
  split <;> next found => rw [found]

/-- Reads a formula that stands on a line of the input. -/
def read (line : Nat) (input : Text) : Except (Located Fault) Formula :=
  (parse input).mapError fun fault => ⟨line, fault⟩

end Turnstile.Formula
