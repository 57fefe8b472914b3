import ScriptLowering.Script.Checked
import ScriptLowering.Ty.Equality

/-!
# Calls with a form of their own

Some library calls are operations of the script language or its runtime: object identity, invoking a
delegate, filling an array from a data blob, joining strings, and reading nullable values.
`replaceCall?` is the form of such a call. The same recognisers serve while calls are lowered and in
the pass over finished trees.
-/

namespace ScriptLowering.Canonical

open Script

/-! ### Objects and delegates -/

/-- `Equals`, `ReferenceEquals` and `GetType` of the root class. -/
def objectCall? (c : Core) (m : Method) (operands : List Node) : Option Node :=
  if !m.isDeclaredBy "System" "Object" then
    none
  else
    match m.name, m.isStatic, operands with
    | "Equals", false, [receiver, other] =>
      some (.intrinsic "ObjectEquals" c.boolean [receiver, other])
    | "Equals", true, [_, left, right] =>
      some (.intrinsic "ObjectEquals" c.boolean [left, right])
    | "ReferenceEquals", true, [_, left, right] => some (.binary .equal left right c.boolean)
    | "GetType", false, [receiver] => some (.intrinsic "GetType" c.type [receiver])
    | _, _, _ => none

/-- The method and the target of a delegate that is created in place. -/
def createdDelegate? (receiver : Node) : Option (Method × Node) :=
  match receiver with
  | ⟨.newObject _ type, [target, ⟨.methodIdentifier callee, _⟩]⟩ =>
    if type.isDelegate then some (callee, target) else none
  | _ => none

/-- `Invoke` of a delegate. A delegate created in place is not created: its method is called. -/
def delegateCall? (m : Method) (dispatch : Dispatch) (operands : List Node) : Option Node :=
  if m.name != "Invoke" || !m.declaringType.isDelegate || m.isStatic then
    none
  else
    match operands with
    | [] => none
    | receiver :: arguments =>
      match createdDelegate? receiver with
      | some (callee, target) =>
        if callee.isStatic then some (.invocation callee .static false .empty arguments)
        else some (.invocation callee .direct false target arguments)
      | none =>
        if dispatch = .delegate then none
        else some (.invocation m .delegate false receiver arguments)

/-! ### Array blobs -/

/-- The number that bytes give, the lowest first. -/
def littleEndian : List UInt8 → Nat
  | [] => 0
  | b :: bytes => b.toNat + 256 * littleEndian bytes

/-- The first `count` pieces of `size` bytes. -/
def pieces (size : Nat) : Nat → List UInt8 → List (List UInt8)
  | 0, _ => []
  | count + 1, data => data.take size :: pieces size count (data.drop size)

/-- The width of an element in a blob. Native integers have no fixed width there. -/
def blobWidth? (kind : Primitive) : Option Nat :=
  if kind.isNative then none else some kind.size

/-- The constant that the bytes of an element give. -/
def blobElement (c : Core) (element : Ty) (kind : Primitive) (bytes : List UInt8) : Literal :=
  let bits := littleEndian bytes
  match kind with
  | .boolean => .boolean (bits != 0)
  | .char => .char (UInt16.ofNat bits)
  | .r4 => .float (.ofSingle ⟨UInt32.ofNat bits⟩) (c.primitive .r4)
  | .r8 => .float ⟨UInt64.ofNat bits⟩ (c.primitive .r8)
  | _ =>
    let value := kind.wrap (UInt64.ofNat bits).toInt64
    if element.enumUnderlying?.isSome then .ofEnum element value else .ofKind c kind value

/-- How many elements are filled: the constant length of a new array, else as many as the blob
holds. -/
def blobCount? (array : Node) (held : Nat) : Option Nat :=
  match array.form with
  | .newArray _ 1 =>
    match array.operands.head?.bind Node.literal? |>.bind Literal.toInt64? with
    | some length => if length.toInt < 0 then some held else some length.toInt.toNat
    | none => some held
  | .newArray _ _ => none
  | _ => if array.isLocation then some held else none

/-- The elements of a blob that fill an array, if it holds enough of them. -/
def blobElements? (c : Core) (array : Node) (element : Ty) (data : List UInt8) :
    Option (List Node) := do
  let kind ← element.numericKind?
  let width ← blobWidth? kind
  let count ← blobCount? array (data.length / width)
  if count * width > data.length then
    none
  else
    return (pieces width count data).map fun bytes => .literal (blobElement c element kind bytes)

/-- `InitializeArray` with a blob as an array literal, which is assigned if the array is a
location. -/
def arrayInitializer? (c : Core) (r : Retyping) (m : Method) (operands : List Node) :
    Option Node :=
  if m.name != "InitializeArray"
      || !m.isDeclaredBy "System.Runtime.CompilerServices" "RuntimeHelpers" then
    none
  else
    match operands with
    | [_, array, ⟨.literal (.fieldHandle field), _⟩] => do
      let data ← field.initialData?
      let element ← (array.computedType c r).elementType?
      let elements ← blobElements? c array element data
      let filled : Node := ⟨.arrayLiteral element, elements⟩
      if array.isLocation then (Node.assign c r array filled).toOption else return filled
    | _ => none

/-! ### Strings -/

/-- `Concat` of strings as a chain of additions. -/
def stringConcat? (h : Hierarchy) (r : Retyping) (m : Method) (arguments : List Node) :
    Option Node :=
  if m.name != "Concat" || !m.isDeclaredBy "System" "String" || !m.isStatic then
    none
  else
    match arguments with
    | first :: second :: rest =>
      if arguments.all fun a => h.isString (a.computedType h.core r) then
        let add (left right : Node) : Node := .binary .add left right h.core.string
        some ((second :: rest).foldl add first)
      else
        none
    | _ => none

/-! ### Nullable values -/

/-- Whether a node can be read again without effect: a variable, a type, or a chain of fields on
one. -/
def isRepeatable : Node → Bool
  | ⟨.var _, _⟩ => true
  | ⟨.typeIdentifier _, _⟩ => true
  | ⟨.fieldAccess _, target :: _⟩ => isRepeatable target
  | _ => false

/-- Whether a nullable value is present. -/
def presence (c : Core) (nullable : Ty) (target : Node) : Node :=
  .binary .notEqual target (.nullOf nullable) c.boolean

/-- The value in a nullable value. -/
def unwrapped (underlying : Ty) (target : Node) : Node :=
  ⟨.nullableUnwrap underlying, [target]⟩

/-- `HasValue`, `Value` and `GetValueOrDefault` of a nullable type. The last reads its receiver
twice. -/
def nullableMember? (c : Core) (m : Method) (target : Node) (fallback? : Option Node) :
    Option Node := do
  let underlying ← m.declaringType.nullableArgument?
  match m.name with
  | "get_HasValue" => some (presence c m.declaringType target)
  | "get_Value" => some (unwrapped underlying target)
  | "GetValueOrDefault" =>
    if isRepeatable target then
      some (.ternary (presence c m.declaringType target) (unwrapped underlying target)
        (fallback?.getD (.defaultOf underlying)) underlying)
    else
      none
  | _ => none

/-- A call of a method of a nullable type. -/
def nullableCall? (c : Core) (m : Method) (operands : List Node) : Option Node :=
  if !m.declaringType.isNullable || m.isStatic then
    none
  else
    match operands with
    | [] => none
    | target :: arguments => nullableMember? c m target arguments.head?

/-! ### All of them -/

/-- The form that a call, the creation of an object or the read of a property has instead, if there
is one. -/
def replaceCall? (h : Hierarchy) (r : Retyping) (node : Node) : Option Node :=
  match node.form with
  | .invocation m dispatch _ =>
    (objectCall? h.core m node.operands).orElse fun _ =>
      (delegateCall? m dispatch node.operands).orElse fun _ =>
        (arrayInitializer? h.core r m node.operands).orElse fun _ =>
          (stringConcat? h r m node.operands.tail).orElse fun _ =>
            nullableCall? h.core m node.operands
  | .newObject constructor type =>
    if type.nullableArgument?.isSome && constructor.parameters.length = 1
        && node.operands.length = 1 then
      some ⟨.nullableWrap type, node.operands⟩
    else
      none
  | .propertyAccess property =>
    match property.getter?, node.operands with
    | some getter, [target] =>
      if property.declaringType.isNullable then nullableMember? h.core getter target none else none
    | _, _ => none
  | _ => none

end ScriptLowering.Canonical
