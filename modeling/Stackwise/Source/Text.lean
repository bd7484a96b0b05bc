import Stackwise.Decimal.Notation
import Stackwise.Source.Module

/-!
# Source text

How values read in messages.  As an operand a value is written with its type and, for an
instruction, only its name; an instruction by itself is written with its operation and operands.
Constants refer to constants with smaller numbers, so the walk into them ends; it never follows the
operands of an instruction.
-/

namespace Stackwise.Source.Module

/-- The name of an instruction. -/
def localName (v : Value) (id : Nat) : String :=
  match v.name with
  | some name => "%" ++ name
  | none => s!"%v{id}"

/-- The text of an operand whose constants are nested less than `depth` deep. -/
def operandTextWithin (m : Module) : (depth id : Nat) → String
  | 0, _ => ""
  | depth + 1, id =>
    match m.value? id with
    | none => ""
    | some v =>
      let listed (ids : List Nat) : String :=
        String.intercalate ", " (ids.map (operandTextWithin m depth))
      m.types.render v.ty ++ " " ++
        match v.kind with
        | .int n => toString n
        | .float bits => Decimal.doubleText bits
        | .null => "null"
        | .zero => "zeroinitializer"
        | .unspecified => "undef"
        | .poison => "poison"
        | .metadata => "!\x7b\x7d"
        | .aggregate elements => "\x7b " ++ listed elements ++ " \x7d"
        | .expr opcode operands => opcode.name ++ " (" ++ listed operands ++ ")"
        | .global _ | .function _ => "@" ++ v.name.getD "?"
        | .argument _ index =>
          match v.name with
          | some name => "%" ++ name
          | none => s!"%arg{index}"
        | .instruction _ => localName v id

/-- The text of a value as an operand. -/
def operandText (m : Module) (id : Nat) : String := m.operandTextWithin (id + 1) id

/-- The text of a block as an operand of an instruction. -/
def blockText (m : Module) (function block : Nat) : String :=
  match (m.function? function).bind (·.blocks[block]?) with
  | some b => "label %" ++ b.name
  | none => s!"label %bb{block}"

/-- The text of an instruction: its name, unless it has no result, its operation, its operands. -/
def instructionText (m : Module) (id : Nat) (v : Value) (i : Instruction) : String :=
  let operand : Operand → String
    | .value id => m.operandText id
    | .block b => m.blockText i.function b
  (if m.types.isVoid v.ty then "" else localName v id ++ " = ") ++ i.opcode.name
    ++ (if i.operands.isEmpty then "" else " ")
    ++ String.intercalate ", " (i.operands.map operand)

/-- The text of a value by itself. -/
def valueText (m : Module) (id : Nat) : String :=
  match m.value? id with
  | some v =>
    match v.kind with
    | .instruction i => m.instructionText id v i
    | _ => m.operandText id
  | none => ""

end Stackwise.Source.Module
