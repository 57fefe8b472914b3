import ScriptLowering.Lowering.Cast
import ScriptLowering.Lowering.Comparison
import ScriptLowering.Lowering.Constant
import ScriptLowering.Lowering.Invocation
import ScriptLowering.Lowering.Jump
import ScriptLowering.Lowering.Lifting
import ScriptLowering.Lowering.Update

/-!
# The rule of every instruction

`ruleOf` gives each opcode its rule, `Lowerer.apply` applies a rule, and `lowerUpTo` closes the
knot: rules lower subexpressions with the rules of their opcodes, one level further down.
-/

namespace ScriptLowering.Lowering

open Script

/-- The rules. -/
inductive Rule where
  /-- The instruction leaves nothing. -/
  | nothing
  | constant
  | sizeOf
  | loadLocal
  | storeLocal
  | localAddress
  | loadField
  | storeField
  | fieldAddress
  | newArray
  | initArray
  | arrayLength
  | loadElement
  | storeElement
  | elementAddress
  | loadIndirect
  | storeIndirect
  | initObject
  | copyObject
  | addressOf
  | binary (op : BinaryOp)
  | unary (op : UnaryOp)
  | negation
  | connective (op : BinaryOp)
  | choice
  | compoundAssignment
  | postIncrement
  | comparison (op : BinaryOp) (unsigned : Bool)
  | conversion (kind : Primitive) (checked : Bool)
  | newObject
  | call
  | methodPointer
  | virtualMethodPointer
  | typeCast (tries : Bool)
  | box
  | unbox
  | nullableWrap
  | nullableValue
  | liftedOperation
  | goto
  | breakOut
  | continueLoop
  | returnValue
  | throwValue
  | rethrow
  /-- The instruction stands for its argument. -/
  | argument
  | unsupported
  deriving DecidableEq

/-- The comparison of an opcode, and whether it is unsigned. -/
def comparisonOperator? : Cil.Opcode → Option (BinaryOp × Bool)
  | .ceq => some (.equal, false)
  | .cne => some (.notEqual, false)
  | .cgt => some (.greater, false)
  | .cgtUn => some (.greater, true)
  | .cge => some (.greaterEqual, false)
  | .cgeUn => some (.greaterEqual, true)
  | .clt => some (.less, false)
  | .cltUn => some (.less, true)
  | .cle => some (.lessEqual, false)
  | .cleUn => some (.lessEqual, true)
  | _ => none

/-- The rule of an opcode that is neither arithmetic nor a comparison nor a conversion. -/
def plainRule : Cil.Opcode → Rule
  | .nop | .endfinally => .nothing
  | .ldcI4 | .ldcI8 | .ldcR4 | .ldcR8 | .ldcDecimal | .ldstr | .ldnull | .defaultValue
  | .ldtoken => .constant
  | .sizeof => .sizeOf
  | .ldloc => .loadLocal
  | .stloc => .storeLocal
  | .ldloca => .localAddress
  | .ldfld | .ldsfld => .loadField
  | .stfld | .stsfld => .storeField
  | .ldflda | .ldsflda => .fieldAddress
  | .newarr | .newarrMd => .newArray
  | .initArray => .initArray
  | .ldlen => .arrayLength
  | .ldelem | .ldelemMd => .loadElement
  | .stelem | .stelemMd => .storeElement
  | .ldelema | .ldelemaMd => .elementAddress
  | .ldind | .ldobj => .loadIndirect
  | .stind | .stobj => .storeIndirect
  | .initobj => .initObject
  | .cpobj => .copyObject
  | .addressOf => .addressOf
  | .neg => .unary .negate
  | .not => .unary .bitwiseNot
  | .logicNot => .negation
  | .logicAnd => .connective .logicalAnd
  | .logicOr => .connective .logicalOr
  | .ternaryOp => .choice
  | .compoundAssignment => .compoundAssignment
  | .postIncrement => .postIncrement
  | .newobj => .newObject
  | .call | .callvirt | .callGetter | .callSetter | .callvirtGetter | .callvirtSetter => .call
  | .ldftn => .methodPointer
  | .ldvirtftn => .virtualMethodPointer
  | .castclass | .unboxAny => .typeCast false
  | .isinst => .typeCast true
  | .box => .box
  | .unbox => .unbox
  | .wrap => .nullableWrap
  | .valueOf => .nullableValue
  | .nullableOf => .liftedOperation
  | .br | .leave => .goto
  | .loopOrSwitchBreak => .breakOut
  | .loopContinue => .continueLoop
  | .ret => .returnValue
  | .throw => .throwValue
  | .rethrow => .rethrow
  | .dup => .argument
  | _ => .unsupported

/-- The rule of an opcode. -/
def ruleOf (code : Cil.Opcode) : Rule :=
  match arithmeticOperator? code, comparisonOperator? code, code.conversion? with
  | some op, _, _ => .binary op
  | none, some (op, unsigned), _ => .comparison op unsigned
  | none, none, some (kind, checked) => .conversion kind checked
  | none, none, none => plainRule code

namespace Lowerer

/-- Applies a rule to an instruction. -/
def apply (g : Lowerer) (e : Cil.Expr) : Rule → Lower Node
  | .nothing => return .empty
  | .constant => g.constant e
  | .sizeOf => g.sizeOf e
  | .loadLocal => g.loadLocal e
  | .storeLocal => g.storeLocal e
  | .localAddress => g.localAddress e
  | .loadField => g.loadField e
  | .storeField => g.storeField e
  | .fieldAddress => g.fieldAddress e
  | .newArray => g.newArray e
  | .initArray => g.initArray e
  | .arrayLength => g.arrayLength e
  | .loadElement => g.loadElement e
  | .storeElement => g.storeElement e
  | .elementAddress => g.elementAddress e
  | .loadIndirect => g.loadIndirect e
  | .storeIndirect => g.storeIndirect e
  | .initObject => g.initObject e
  | .copyObject => g.copyObject e
  | .addressOf => g.addressOf e
  | .binary op => g.binaryOperation e op
  | .unary op => g.unaryOperation e op
  | .negation => g.negation e
  | .connective op => g.connective e op
  | .choice => g.choice e
  | .compoundAssignment => g.compoundAssignment e
  | .postIncrement => g.postIncrement e
  | .comparison op unsigned => g.comparison e op unsigned
  | .conversion kind checked => g.conversion e kind checked
  | .newObject => g.newObject e
  | .call => g.call e
  | .methodPointer => g.methodPointer e
  | .virtualMethodPointer => g.virtualMethodPointer e
  | .typeCast tries => g.typeCast e tries
  | .box => g.box e
  | .unbox => g.unbox e
  | .nullableWrap => g.nullableWrap e
  | .nullableValue => g.nullableValue e
  | .liftedOperation => g.liftedOperation e
  | .goto => g.goto e
  | .breakOut => g.breakOut e
  | .continueLoop => g.continueLoop e
  | .returnValue => g.returnValue e
  | .throwValue => g.throwValue e
  | .rethrow => return ⟨.rethrow, []⟩
  | .argument => do g.expression (← Lowerer.argument e 0)
  | .unsupported => g.unsupported e

end Lowerer

/-- Lowers an expression without a cast to its expected type, at most `n` levels deep. -/
def lowerUpTo (env : Env) (method : Method) : Nat → Cil.Expr → Lower Node
  | 0, _ => throw (.recursionLimit env.settings.maxRecursionDepth)
  | n + 1, e =>
    Lower.oneLevelDown
      (({ env, method, raw := lowerUpTo env method n } : Lowerer).apply e (ruleOf e.code))

/-- The rules for a method. The context refuses an expression below the deepest level, so that one
level more than allowed is never used up. -/
def Lowerer.ofMethod (env : Env) (method : Method) : Lowerer where
  env := env
  method := method
  raw := lowerUpTo env method (env.settings.maxRecursionDepth + 1)

end ScriptLowering.Lowering
