import ScriptLowering.Numeric.Primitive

/-!
# Opcodes

The instruction kinds of a decompiled method body. Beside the plain instructions there are kinds
for what decompilation recovers: compound assignments, increments, nullable markers, accesses of
arrays with several dimensions and accessor calls.
-/

namespace ScriptLowering.Cil

/-- Instruction kinds. -/
inductive Opcode where
  -- Constants
  | nop
  | ldcI4
  | ldcI8
  | ldcR4
  | ldcR8
  | ldcDecimal
  | ldstr
  | ldnull
  | defaultValue
  | ldtoken
  | sizeof
  -- Variables and fields
  | ldloc
  | stloc
  | ldloca
  | ldfld
  | stfld
  | ldflda
  | ldsfld
  | stsfld
  | ldsflda
  -- Arrays
  | newarr
  | newarrMd
  | initArray
  | ldlen
  | ldelem
  | stelem
  | ldelema
  | ldelemMd
  | stelemMd
  | ldelemaMd
  -- Indirect access
  | ldind
  | stind
  | ldobj
  | stobj
  | initobj
  | cpobj
  | addressOf
  -- Arithmetic and logic
  | add
  | addOvf
  | addOvfUn
  | sub
  | subOvf
  | subOvfUn
  | mul
  | mulOvf
  | mulOvfUn
  | div
  | divUn
  | rem
  | remUn
  | and
  | or
  | xor
  | shl
  | shr
  | shrUn
  | neg
  | not
  | logicNot
  | logicAnd
  | logicOr
  | ternaryOp
  | compoundAssignment
  | postIncrement
  -- Comparisons
  | ceq
  | cne
  | cgt
  | cgtUn
  | cge
  | cgeUn
  | clt
  | cltUn
  | cle
  | cleUn
  -- Conversions
  | convI1
  | convI2
  | convI4
  | convI8
  | convU1
  | convU2
  | convU4
  | convU8
  | convI
  | convU
  | convR4
  | convR8
  | convRUn
  | convOvfI1
  | convOvfI2
  | convOvfI4
  | convOvfI8
  | convOvfU1
  | convOvfU2
  | convOvfU4
  | convOvfU8
  | convOvfI
  | convOvfU
  | convOvfI1Un
  | convOvfI2Un
  | convOvfI4Un
  | convOvfI8Un
  | convOvfU1Un
  | convOvfU2Un
  | convOvfU4Un
  | convOvfU8Un
  | convOvfIUn
  | convOvfUUn
  -- Objects and calls
  | newobj
  | call
  | callvirt
  | callGetter
  | callSetter
  | callvirtGetter
  | callvirtSetter
  | ldftn
  | ldvirtftn
  | castclass
  | isinst
  | box
  | unbox
  | unboxAny
  -- Nullable markers
  | wrap
  | valueOf
  | nullableOf
  -- Control flow
  | br
  | leave
  | loopOrSwitchBreak
  | loopContinue
  | ret
  | throw
  | rethrow
  | endfinally
  | dup
  -- Unsupported
  | arglist
  | localloc
  | mkrefany
  | refanyval
  | refanytype
  | ckfinite
  | cpblk
  | initblk
  | jmp
  | calli
  deriving DecidableEq

namespace Opcode

/-- Every opcode once, in table order. -/
def all : List Opcode :=
  [nop, ldcI4, ldcI8, ldcR4, ldcR8, ldcDecimal, ldstr, ldnull, defaultValue, ldtoken, sizeof,
    ldloc, stloc, ldloca, ldfld, stfld, ldflda, ldsfld, stsfld, ldsflda, newarr, newarrMd,
    initArray, ldlen, ldelem, stelem, ldelema, ldelemMd, stelemMd, ldelemaMd, ldind, stind,
    ldobj, stobj, initobj, cpobj, addressOf, add, addOvf, addOvfUn, sub, subOvf, subOvfUn, mul,
    mulOvf, mulOvfUn, div, divUn, rem, remUn, and, or, xor, shl, shr, shrUn, neg, not,
    logicNot, logicAnd, logicOr, ternaryOp, compoundAssignment, postIncrement, ceq, cne, cgt,
    cgtUn, cge, cgeUn, clt, cltUn, cle, cleUn, convI1, convI2, convI4, convI8, convU1, convU2,
    convU4, convU8, convI, convU, convR4, convR8, convRUn, convOvfI1, convOvfI2, convOvfI4,
    convOvfI8, convOvfU1, convOvfU2, convOvfU4, convOvfU8, convOvfI, convOvfU, convOvfI1Un,
    convOvfI2Un, convOvfI4Un, convOvfI8Un, convOvfU1Un, convOvfU2Un, convOvfU4Un, convOvfU8Un,
    convOvfIUn, convOvfUUn, newobj, call, callvirt, callGetter, callSetter, callvirtGetter,
    callvirtSetter, ldftn, ldvirtftn, castclass, isinst, box, unbox, unboxAny, wrap, valueOf,
    nullableOf, br, leave, loopOrSwitchBreak, loopContinue, ret, throw, rethrow, endfinally,
    dup, arglist, localloc, mkrefany, refanyval, refanytype, ckfinite, cpblk, initblk, jmp,
    calli]

/-- The name of an opcode. -/
def name : Opcode → String
  | nop => "Nop"
  | ldcI4 => "LdcI4"
  | ldcI8 => "LdcI8"
  | ldcR4 => "LdcR4"
  | ldcR8 => "LdcR8"
  | ldcDecimal => "LdcDecimal"
  | ldstr => "Ldstr"
  | ldnull => "Ldnull"
  | defaultValue => "DefaultValue"
  | ldtoken => "Ldtoken"
  | sizeof => "Sizeof"
  | ldloc => "Ldloc"
  | stloc => "Stloc"
  | ldloca => "Ldloca"
  | ldfld => "Ldfld"
  | stfld => "Stfld"
  | ldflda => "Ldflda"
  | ldsfld => "Ldsfld"
  | stsfld => "Stsfld"
  | ldsflda => "Ldsflda"
  | newarr => "Newarr"
  | newarrMd => "NewarrMd"
  | initArray => "InitArray"
  | ldlen => "Ldlen"
  | ldelem => "Ldelem"
  | stelem => "Stelem"
  | ldelema => "Ldelema"
  | ldelemMd => "LdelemMd"
  | stelemMd => "StelemMd"
  | ldelemaMd => "LdelemaMd"
  | ldind => "Ldind"
  | stind => "Stind"
  | ldobj => "Ldobj"
  | stobj => "Stobj"
  | initobj => "Initobj"
  | cpobj => "Cpobj"
  | addressOf => "AddressOf"
  | add => "Add"
  | addOvf => "AddOvf"
  | addOvfUn => "AddOvfUn"
  | sub => "Sub"
  | subOvf => "SubOvf"
  | subOvfUn => "SubOvfUn"
  | mul => "Mul"
  | mulOvf => "MulOvf"
  | mulOvfUn => "MulOvfUn"
  | div => "Div"
  | divUn => "DivUn"
  | rem => "Rem"
  | remUn => "RemUn"
  | and => "And"
  | or => "Or"
  | xor => "Xor"
  | shl => "Shl"
  | shr => "Shr"
  | shrUn => "ShrUn"
  | neg => "Neg"
  | not => "Not"
  | logicNot => "LogicNot"
  | logicAnd => "LogicAnd"
  | logicOr => "LogicOr"
  | ternaryOp => "TernaryOp"
  | compoundAssignment => "CompoundAssignment"
  | postIncrement => "PostIncrement"
  | ceq => "Ceq"
  | cne => "Cne"
  | cgt => "Cgt"
  | cgtUn => "CgtUn"
  | cge => "Cge"
  | cgeUn => "CgeUn"
  | clt => "Clt"
  | cltUn => "CltUn"
  | cle => "Cle"
  | cleUn => "CleUn"
  | convI1 => "ConvI1"
  | convI2 => "ConvI2"
  | convI4 => "ConvI4"
  | convI8 => "ConvI8"
  | convU1 => "ConvU1"
  | convU2 => "ConvU2"
  | convU4 => "ConvU4"
  | convU8 => "ConvU8"
  | convI => "ConvI"
  | convU => "ConvU"
  | convR4 => "ConvR4"
  | convR8 => "ConvR8"
  | convRUn => "ConvRUn"
  | convOvfI1 => "ConvOvfI1"
  | convOvfI2 => "ConvOvfI2"
  | convOvfI4 => "ConvOvfI4"
  | convOvfI8 => "ConvOvfI8"
  | convOvfU1 => "ConvOvfU1"
  | convOvfU2 => "ConvOvfU2"
  | convOvfU4 => "ConvOvfU4"
  | convOvfU8 => "ConvOvfU8"
  | convOvfI => "ConvOvfI"
  | convOvfU => "ConvOvfU"
  | convOvfI1Un => "ConvOvfI1Un"
  | convOvfI2Un => "ConvOvfI2Un"
  | convOvfI4Un => "ConvOvfI4Un"
  | convOvfI8Un => "ConvOvfI8Un"
  | convOvfU1Un => "ConvOvfU1Un"
  | convOvfU2Un => "ConvOvfU2Un"
  | convOvfU4Un => "ConvOvfU4Un"
  | convOvfU8Un => "ConvOvfU8Un"
  | convOvfIUn => "ConvOvfIUn"
  | convOvfUUn => "ConvOvfUUn"
  | newobj => "Newobj"
  | call => "Call"
  | callvirt => "Callvirt"
  | callGetter => "CallGetter"
  | callSetter => "CallSetter"
  | callvirtGetter => "CallvirtGetter"
  | callvirtSetter => "CallvirtSetter"
  | ldftn => "Ldftn"
  | ldvirtftn => "Ldvirtftn"
  | castclass => "Castclass"
  | isinst => "Isinst"
  | box => "Box"
  | unbox => "Unbox"
  | unboxAny => "UnboxAny"
  | wrap => "Wrap"
  | valueOf => "ValueOf"
  | nullableOf => "NullableOf"
  | br => "Br"
  | leave => "Leave"
  | loopOrSwitchBreak => "LoopOrSwitchBreak"
  | loopContinue => "LoopContinue"
  | ret => "Ret"
  | throw => "Throw"
  | rethrow => "Rethrow"
  | endfinally => "Endfinally"
  | dup => "Dup"
  | arglist => "Arglist"
  | localloc => "Localloc"
  | mkrefany => "Mkrefany"
  | refanyval => "Refanyval"
  | refanytype => "Refanytype"
  | ckfinite => "Ckfinite"
  | cpblk => "Cpblk"
  | initblk => "Initblk"
  | jmp => "Jmp"
  | calli => "Calli"

/-- The opcode with a name. -/
def ofName? (s : String) : Option Opcode :=
  all.find? (·.name == s)

/-- The opcodes that read a storage location. -/
def isLoad : Opcode → Bool
  | ldloc | ldfld | ldsfld | ldelem | ldelemMd | ldobj | ldind | callGetter | callvirtGetter => true
  | _ => false

/-- The destination of a conversion, and whether it checks for overflow. -/
def conversion? : Opcode → Option (Primitive × Bool)
  | convI1 => some (.i1, false)
  | convI2 => some (.i2, false)
  | convI4 => some (.i4, false)
  | convI8 => some (.i8, false)
  | convU1 => some (.u1, false)
  | convU2 => some (.u2, false)
  | convU4 => some (.u4, false)
  | convU8 => some (.u8, false)
  | convI => some (.i, false)
  | convU => some (.u, false)
  | convR4 => some (.r4, false)
  | convR8 | convRUn => some (.r8, false)
  | convOvfI1 | convOvfI1Un => some (.i1, true)
  | convOvfI2 | convOvfI2Un => some (.i2, true)
  | convOvfI4 | convOvfI4Un => some (.i4, true)
  | convOvfI8 | convOvfI8Un => some (.i8, true)
  | convOvfU1 | convOvfU1Un => some (.u1, true)
  | convOvfU2 | convOvfU2Un => some (.u2, true)
  | convOvfU4 | convOvfU4Un => some (.u4, true)
  | convOvfU8 | convOvfU8Un => some (.u8, true)
  | convOvfI | convOvfIUn => some (.i, true)
  | convOvfU | convOvfUUn => some (.u, true)
  | _ => none

/-- The conversions that read their operand as unsigned. -/
def isUnsignedSource : Opcode → Bool
  | convRUn | convOvfI1Un | convOvfI2Un | convOvfI4Un | convOvfI8Un | convOvfU1Un | convOvfU2Un
  | convOvfU4Un | convOvfU8Un | convOvfIUn | convOvfUUn => true
  | _ => false

end Opcode

end ScriptLowering.Cil
