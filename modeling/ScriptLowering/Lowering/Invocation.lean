import ScriptLowering.Canonical.Intrinsic
import ScriptLowering.Lowering.Storage

/-!
# Calls and object creation

A call passes through the directives first: script text, a placeholder for ignored members, another
method in its place. A type handle turned into a type is a constant, a library call with a form of
its own takes it, and an accessor becomes the property access. What is left is an invocation.
-/

namespace ScriptLowering.Lowering

open Script

/-- The calls that look the method up on the receiver. -/
def isVirtualCall : Cil.Opcode → Bool
  | .callvirt | .callvirtGetter | .callvirtSetter => true
  | _ => false

/-- What is left of a call that is ignored. -/
def ignoredCall (m : Method) : Node :=
  ⟨.ignoredMember m.name (if m.isConstructor then m.declaringType else m.returnType), []⟩

/-- The type constant that a conversion of a type handle is. -/
def typeFromHandle? (m : Method) (arguments : List Cil.Expr) : Option Node :=
  if m.name == "GetTypeFromHandle" && m.isDeclaredBy "System" "Type" then
    match arguments.head? with
    | some ⟨.ldtoken, .type t, _, _, _, _⟩ => some (.literal (.typeOf t))
    | _ => none
  else
    none

/-- Whether a node is the receiver of the method. -/
def isOwnReceiver (n : Node) : Bool :=
  n.var?.any Variable.isThis

/-- How a call from a method of type `caller` selects its target. A call of an overridable method of
another class that does not look it up, on the own receiver, calls the base class. -/
def dispatchOf (h : Hierarchy) (caller : Ty) (code : Cil.Opcode) (m : Method) (receiver : Node) :
    Dispatch :=
  if m.isStatic then .static
  else if m.declaringType.isDelegate && m.name == "Invoke" then .delegate
  else if m.declaringType.isInterface then .interface
  else if isVirtualCall code then
    if m.isOverridable then .virtual else .direct
  else if m.isVirtual && isOwnReceiver receiver && !h.same m.declaringType caller then .base
  else .direct

/-- The names that script text refers to: the receiver and the parameters. -/
def placeholderNames (m : Method) (hasReceiver : Bool) : List String :=
  (if hasReceiver then ["this"] else []) ++ m.parameters.map (·.name)

namespace Lowerer

/-- Lowers a call that script text stands for. The text binds as many names as there are
arguments. -/
def replaced (g : Lowerer) (e : Cil.Expr) (m : Method) (text : String) : Lower Node := do
  let creates := e.code == .newobj
  let names := placeholderNames m (!m.isStatic && !creates)
  let operands ← Lower.each g.expression (e.arguments.take names.length)
  let result := if creates then m.declaringType else m.returnType
  return ⟨.verbatim text (names.take operands.length) result, operands⟩

/-- Lowers a receiver, and tells whether it is passed explicitly. A value type has to be passed by
reference, so that the caller sees changes that the method makes. -/
def callReceiver (g : Lowerer) (e : Cil.Expr) (m : Method) : Lower (Node × Bool) := do
  let node ← g.raw e
  if m.declaringType.isValueType then
    let reference ← g.requireReference node ("receiver of " ++ m.fullName)
    return (← g.location reference, true)
  else
    return (node, false)

/-- Lowers an argument for a parameter. -/
def callArgument (g : Lowerer) (m : Method) (p : MethodParameter) (e : Cil.Expr) : Lower Node := do
  if p.type.isByRef then
    let node ← g.raw e
    let reference ← g.requireReference node ("argument '" ++ p.name ++ "' of " ++ m.fullName)
    Lower.ofExcept (Node.passByReference reference)
  else
    g.copy (← g.expecting e p.type)

/-- Lowers arguments for parameters; arguments in excess are lowered as they are. -/
def callArguments (g : Lowerer) (m : Method) :
    List MethodParameter → List Cil.Expr → Lower (List Node)
  | _, [] => return []
  | [], e :: rest => do
    let value ← g.expression e
    let values ← g.callArguments m [] rest
    return value :: values
  | p :: parameters, e :: rest => do
    let value ← g.callArgument m p e
    let values ← g.callArguments m parameters rest
    return value :: values

/-- The target of the property that a method is an accessor of. -/
def accessTarget (g : Lowerer) (m : Method) (receiver : Node) : Lower Node :=
  if m.isStatic then g.typeTarget m.declaringType else return receiver

/-- A call of a getter as the property, and of a setter as an assignment to it. -/
def propertyAccess? (g : Lowerer) (m : Method) (receiver : Node) (arguments : List Node) :
    Lower (Option Node) := do
  match ← g.propertyOf? m with
  | none => return none
  | some property =>
    let target ← g.accessTarget m receiver
    if property.getter?.any (·.name == m.name) then
      return some (.propertyAccess property target arguments)
    else
      match arguments.getLast? with
      | none => return none
      | some value =>
        let access ← g.assign (.propertyAccess property target arguments.dropLast) value
        return some access

/-- The form of its own that a call has, when such forms are given early. -/
def earlyForm? (g : Lowerer) (node : Node) : Lower (Option Node) := do
  if g.env.settings.earlyIntrinsics then
    return Canonical.replaceCall? g.env.types (← Lower.context).scope.retyping node
  else
    return none

/-- The property access that a call is; calls of the base class stay calls. -/
def accessorForm? (g : Lowerer) (m : Method) (dispatch : Dispatch) (receiver : Node)
    (arguments : List Node) : Lower (Option Node) :=
  if dispatch = .base then return none else g.propertyAccess? m receiver arguments

/-- Lowers a call of a method that no directive replaces. -/
def invocation (g : Lowerer) (e : Cil.Expr) (m : Method) (packsResult : Bool) : Lower Node := do
  let (receiver, explicit) ←
    if m.isStatic then pure (Node.empty, false) else do g.callReceiver (← argument e 0) m
  let arguments ← g.callArguments m m.parameters (e.arguments.drop (if m.isStatic then 0 else 1))
  let dispatch := dispatchOf g.env.types g.method.declaringType e.code m receiver
  let node := Node.invocation m dispatch (explicit || dispatch = .base) receiver arguments
  match ← g.earlyForm? node with
  | some form => return form
  | none =>
    match ← g.accessorForm? m dispatch receiver arguments with
    | some access => return access
    | none => return if packsResult then packed node m.returnType else node

/-- Lowers a call. -/
def call (g : Lowerer) (e : Cil.Expr) : Lower Node := do
  let called ← methodOperand e
  let directive? ← g.methodDirective? called
  match directive?.bind (·.replacement?) with
  | some text => g.replaced e called text
  | none =>
    if ← g.ignores called then
      return ignoredCall called
    else
      let m := (directive?.bind (·.proxy?)).getD called
      match typeFromHandle? m e.arguments with
      | some constant => return constant
      | none => g.invocation e m (directive?.any (·.packedReturn))

/-- Lowers the creation of an object. -/
def newObject (g : Lowerer) (e : Cil.Expr) : Lower Node := do
  let called ← methodOperand e
  let directive? ← g.methodDirective? called
  match directive?.bind (·.replacement?) with
  | some text => g.replaced e called text
  | none =>
    if ← g.ignores called then
      return ignoredCall called
    else
      let constructor := (directive?.bind (·.proxy?)).getD called
      let arguments ← g.callArguments constructor constructor.parameters e.arguments
      let node : Node := ⟨.newObject constructor constructor.declaringType, arguments⟩
      return (← g.earlyForm? node).getD node

/-- Lowers a method as a value. -/
def methodPointer (_ : Lowerer) (e : Cil.Expr) : Lower Node :=
  return .methodIdentifier (← methodOperand e)

/-- Lowers a method as a value that is looked up on an object. -/
def virtualMethodPointer (g : Lowerer) (e : Cil.Expr) : Lower Node := do
  let m ← methodOperand e
  let target ← g.expression (← argument e 0)
  return .intrinsic "GetVirtualMethod" g.core.nativeInt [target, .methodIdentifier m]

end Lowerer

end ScriptLowering.Lowering
