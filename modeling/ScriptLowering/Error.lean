import ScriptLowering.Cil.Body
import ScriptLowering.Script.Node

/-!
# Failures

The reasons for which a method cannot be lowered. Each reason is a value; its wording is in
`Error.message`. What only concerns one instruction is no failure: it leaves an unsupported node
and a diagnostic.
-/

namespace ScriptLowering

/-- What an instruction needs as its operand. -/
inductive OperandNeed where
  | var
  | field
  | method
  | type
  | label
  deriving DecidableEq

/-- Damage of a method body. -/
inductive Malformed where
  | operandNotTaken (code : Cil.Opcode) (operand : Cil.Operand)
  | argumentMissing (code : Cil.Opcode) (index : Nat)
  | operandRequired (code : Cil.Opcode) (need : OperandNeed)
  | noDimensions (code : Cil.Opcode)
  | noArguments (code : Cil.Opcode)
  | noIndices (code : Cil.Opcode)
  | notAnArray (code : Cil.Opcode)
  | unknownRead (code : Cil.Opcode)
  | outsideLoopOrSwitch (code : Cil.Opcode)
  | outsideLoop (code : Cil.Opcode)
  | deltaRequired (code : Cil.Opcode)

/-- What is wrong with the operands of a node. -/
inductive NodeFault where
  | operandCount (form : Script.Form) (expected got : Nat)
  | tooFewOperands (form : Script.Form) (least got : Nat)
  | selfWrap (form : Script.Form)

/-- Why a compound assignment cannot be rebuilt. -/
inductive CompoundFault where
  | notAnAssignment (op : Script.BinaryOp)
  | noCompoundForm (code : Cil.Opcode)
  | targetNotRead (code found : Cil.Opcode)

/-- A reason for which a method cannot be lowered. -/
inductive Error where
  /-- The method body is damaged. -/
  | malformed (cause : Malformed)
  /-- An assignment to something that is not a location. -/
  | invalidTarget (target : Script.Node)
  /-- A value where a reference is needed. -/
  | referenceRequired (use : String) (value : Script.Node)
  | compoundAssignment (cause : CompoundFault)
  /-- A variable met again with another type. -/
  | variableRedeclared (name : String) (existing requested : Ty)
  | invalidNode (cause : NodeFault)
  /-- A tree deeper than allowed. -/
  | recursionLimit (depth : Nat)
  /-- A reducer that changes one place again and again. -/
  | reductionLimit (reducer : String)

namespace OperandNeed

/-- The word for a kind of operand. -/
def word : OperandNeed → String
  | var => "variable"
  | field => "field"
  | method => "method"
  | type => "type"
  | label => "label"

end OperandNeed

namespace Malformed

/-- The wording of damage. -/
def message : Malformed → String
  | operandNotTaken code operand => code.name ++ " cannot take operand " ++ operand.debugText
  | argumentMissing code index => code.name ++ " is missing argument " ++ toString index
  | operandRequired code need => code.name ++ " requires a " ++ need.word ++ " operand"
  | noDimensions code => code.name ++ " without dimensions"
  | noArguments code => code.name ++ " without arguments"
  | noIndices code => code.name ++ " without indices"
  | notAnArray code => code.name ++ " on a non-array value"
  | unknownRead code => "Cannot determine the type read by " ++ code.name
  | outsideLoopOrSwitch code => code.name ++ " outside of a loop or switch"
  | outsideLoop code => code.name ++ " outside of a loop"
  | deltaRequired code => code.name ++ " requires an integer delta"

end Malformed

namespace NodeFault

/-- The wording of a node fault. -/
def message : NodeFault → String
  | operandCount form expected got =>
    form.name ++ " takes " ++ toString expected ++ " operands, got " ++ toString got
  | tooFewOperands form least got =>
    form.name ++ " takes at least " ++ toString least ++ " operands, got " ++ toString got
  | selfWrap form => form.name ++ " cannot directly wrap another " ++ form.name

end NodeFault

namespace CompoundFault

/-- The wording of a compound fault. -/
def message : CompoundFault → String
  | notAnAssignment op => "'" ++ op.symbol ++ "' is not an assignment operator"
  | noCompoundForm code => "no compound form of " ++ code.name
  | targetNotRead code found => code.name ++ " does not read its target, found " ++ found.name

end CompoundFault

namespace Error

/-- The name of a kind of failure. -/
def name : Error → String
  | malformed _ => "Malformed"
  | invalidTarget _ => "InvalidLValue"
  | referenceRequired _ _ => "ReferenceRequired"
  | compoundAssignment _ => "CompoundAssignment"
  | variableRedeclared _ _ _ => "VariableRedeclared"
  | invalidNode _ => "InvalidNode"
  | recursionLimit _ => "RecursionLimit"
  | reductionLimit _ => "RewriteLimit"

/-- The wording of a failure. -/
def message : Error → String
  | malformed cause => "Malformed - " ++ cause.message
  | invalidTarget target => "Invalid assignment target: " ++ target.text
  | referenceRequired use value => "A reference is required: " ++ use ++ ": " ++ value.text
  | compoundAssignment cause => "Cannot reconstruct compound assignment: " ++ cause.message
  | variableRedeclared name existing requested =>
    "Variable '" ++ name ++ "' redeclared as '" ++ requested.fullName ++ "' (was '"
      ++ existing.fullName ++ "')"
  | invalidNode cause => "Invalid node: " ++ cause.message
  | recursionLimit depth => "Reach the maximum recursion level allowed - " ++ toString depth
  | reductionLimit reducer => "Rewrite pass '" ++ reducer ++ "' exceeded its rewrite limit"

end Error

end ScriptLowering
