import ScriptLowering.Ty.Definition

/-!
# Types

A type is a named definition, a wrapper around another type (array, reference, pointer, custom
modifier, pinned), a generic instance, a generic parameter or a function pointer. Types are plain
trees: what a definition derives from is not part of it.
-/

namespace ScriptLowering

/-- The shape of a type. -/
inductive Ty where
  /-- A definition at the top level of its module. -/
  | named (definition : Definition)
  /-- A definition inside another type. -/
  | nested (outer : Ty) (definition : Definition)
  /-- An array; of rank 1 it is a vector that starts at zero. -/
  | array (element : Ty) (rank : Nat)
  /-- A managed reference. -/
  | byRef (element : Ty)
  /-- An unmanaged pointer. -/
  | pointer (element : Ty)
  /-- A type with a custom modifier. -/
  | modified (element modifier : Ty) (required : Bool)
  /-- The type of a pinned local. -/
  | pinned (element : Ty)
  /-- A generic type applied to arguments. -/
  | inst (generic : Ty) (arguments : List Ty)
  /-- A generic parameter of a type, by position only when it has no name. -/
  | typeParam (owner : Ty) (position : Nat) (name? : Option String)
  /-- A generic parameter of a method, with the parameter names that the method declares. -/
  | methodParam (owner : Ty) (method : String) (declared : List String) (position : Nat)
      (name? : Option String)
  /-- A pointer to a method. -/
  | functionPointer (result : Ty) (parameters : List Ty)

namespace Ty

instance : Inhabited Ty :=
  ⟨.named (.plain 0 "" "" (.ofFile "") .classType)⟩

/-- An array type; the rank is at least one. -/
def arrayOf (element : Ty) (rank : Nat) : Ty :=
  .array element (max rank 1)

/-! ### Names -/

mutual

/-- The full textual name of a type. Nested types are separated by a slash. -/
def fullName : Ty → String
  | named d => d.qualifiedName
  | nested outer d => outer.fullName ++ "/" ++ d.name
  | array element rank =>
    element.fullName ++ "[" ++ String.ofList (List.replicate (rank - 1) ',') ++ "]"
  | byRef element => element.fullName ++ "&"
  | pointer element => element.fullName ++ "*"
  | modified element modifier required =>
    element.fullName ++ (if required then " modreq(" else " modopt(") ++ modifier.fullName ++ ")"
  | pinned element => element.fullName ++ " pinned"
  | inst generic arguments =>
    generic.fullName ++ "<" ++ ",".intercalate (fullNames arguments) ++ ">"
  | typeParam _ position name? => name?.getD ("!" ++ toString position)
  | methodParam _ _ _ position name? => name?.getD ("!!" ++ toString position)
  | functionPointer result parameters =>
    "method " ++ result.fullName ++ " *(" ++ ",".intercalate (fullNames parameters) ++ ")"

/-- The full names of a list of types. -/
def fullNames : List Ty → List String
  | [] => []
  | t :: ts => t.fullName :: fullNames ts

end

/-- Types that are written the same are the same. -/
instance : BEq Ty :=
  ⟨fun a b => a.fullName == b.fullName⟩

/-! ### Shape -/

/-- The named definition, also of a generic instance. -/
def definition? : Ty → Option Definition
  | named d => some d
  | nested _ d => some d
  | inst generic _ => generic.definition?
  | _ => none

/-- The full name of the named definition, also of a generic instance. -/
def definitionName? : Ty → Option String
  | named d => some (named d).fullName
  | nested outer d => some (nested outer d).fullName
  | inst generic _ => generic.definitionName?
  | _ => none

/-- The type without the modifiers and pins on its outside. -/
def strip : Ty → Ty
  | modified element _ _ => element.strip
  | pinned element => element.strip
  | t => t

/-- The wrapper of a type, with what tells two wrappers of a kind apart. -/
inductive Wrapper where
  | array (rank : Nat)
  | byRef
  | pointer
  | modifier (required : Bool)
  | pinned
  deriving DecidableEq

/-- The outermost wrapper and what it wraps. -/
def wrapper? : Ty → Option (Wrapper × Ty)
  | array element rank => some (.array rank, element)
  | byRef element => some (.byRef, element)
  | pointer element => some (.pointer, element)
  | modified element _ required => some (.modifier required, element)
  | pinned element => some (.pinned, element)
  | _ => none

/-- The primitive kind, through modifiers. -/
def primitive? : Ty → Option Primitive
  | named d => d.primitive?
  | nested _ d => d.primitive?
  | modified element _ _ => element.primitive?
  | pinned element => element.primitive?
  | _ => none

/-- Whether the type is an unmanaged pointer, through modifiers. -/
def isPointer : Ty → Bool
  | pointer _ => true
  | modified element _ _ => element.isPointer
  | pinned element => element.isPointer
  | _ => false

/-- Whether the type is a managed reference, through modifiers. -/
def isByRef : Ty → Bool
  | byRef _ => true
  | modified element _ _ => element.isByRef
  | pinned element => element.isByRef
  | _ => false

/-- The rank of an array, through modifiers. -/
def arrayRank? : Ty → Option Nat
  | array _ rank => some rank
  | modified element _ _ => element.arrayRank?
  | pinned element => element.arrayRank?
  | _ => none

/-- Whether the type is an array, through modifiers. -/
def isArray (t : Ty) : Bool :=
  t.arrayRank?.isSome

/-- The element of an array, pointer or reference, through modifiers. -/
def elementType? : Ty → Option Ty
  | array element _ => some element
  | byRef element => some element
  | pointer element => some element
  | modified element _ _ => element.elementType?
  | pinned element => element.elementType?
  | _ => none

/-- Whether the type is a generic parameter. -/
def isGenericParameter : Ty → Bool
  | typeParam .. | methodParam .. => true
  | _ => false

/-- Whether values of the type are copied, through modifiers. Nothing is known of generic
parameters, so they are not value types. -/
def isValueType : Ty → Bool
  | modified element _ _ => element.isValueType
  | pinned element => element.isValueType
  | t => t.definition?.any (·.category.isValue)

/-- Whether the type is a value type other than a primitive or an enumeration. -/
def isStruct (t : Ty) : Bool :=
  t.definition?.any fun d => d.category == .valueType && d.primitive?.isNone

/-- The integer kind under an enumeration, through custom modifiers but not through pins. -/
def enumUnderlying? : Ty → Option Primitive
  | modified element _ _ => element.enumUnderlying?
  | t =>
    t.definition?.bind fun d =>
      match d.category with
      | .enumeration kind => some kind
      | _ => none

/-- Whether the type is a delegate. -/
def isDelegate (t : Ty) : Bool :=
  t.definition?.any (·.category == .delegateType)

/-- Whether the type is an interface. -/
def isInterface (t : Ty) : Bool :=
  t.definition?.any (·.category == .interfaceType)

/-- Whether nothing can derive from the type. Value types are always sealed. -/
def isSealed (t : Ty) : Bool :=
  t.definition?.any fun d => d.isSealed || d.category.isValue

/-- Whether the definition is called `name` in the namespace `namespaceName`. -/
def isNamed (t : Ty) (namespaceName name : String) : Bool :=
  t.definition?.any (·.isNamed namespaceName name)

/-- The simple name of the nullable wrapper. -/
def nullableName : String :=
  "Nullable`1"

/-- Whether the type is the nullable wrapper or an instance of it. -/
def isNullable (t : Ty) : Bool :=
  t.isNamed "System" nullableName

/-- The arguments of a generic instance. -/
def genericArguments : Ty → List Ty
  | inst _ arguments => arguments
  | _ => []

/-- What an instance of the nullable wrapper wraps. -/
def nullableArgument? (t : Ty) : Option Ty :=
  if t.isNullable then t.genericArguments.head? else none

/-- Whether the type is a packed array. -/
def isPackedArray (t : Ty) : Bool :=
  t.definition?.any (·.isPackedArray)

/-- The type below all reference and pointer layers, and the number of layers. Modifiers are
ignored. -/
def dereference : Ty → Ty × Nat
  | modified element _ _ => element.dereference
  | pinned element => element.dereference
  | byRef element => (element.dereference.1, element.dereference.2 + 1)
  | pointer element => (element.dereference.1, element.dereference.2 + 1)
  | t => (t, 0)

/-! ### Numeric classification -/

/-- The kind that numeric reasoning uses: enumerations count as their underlying kind. -/
def numericKind? (t : Ty) : Option Primitive :=
  t.primitive?.orElse fun _ => t.enumUnderlying?

/-- Whether the type is an integer, which characters, native integers and enumerations are. -/
def isIntegral (t : Ty) : Bool :=
  t.numericKind?.any Primitive.isIntegral

/-- Whether the type is a floating point type. -/
def isFloating (t : Ty) : Bool :=
  t.numericKind?.any Primitive.isFloating

/-- Whether the type is a signed integer or a floating point type. -/
def isSigned (t : Ty) : Bool :=
  t.numericKind?.any Primitive.isSigned

/-- Whether the type takes part in arithmetic. -/
def isNumeric (t : Ty) : Bool :=
  t.numericKind?.any Primitive.isNumeric

/-- Width in bytes, zero when unknown. Pointers and references have native width. -/
def size (t : Ty) : Nat :=
  if t.isPointer || t.isByRef then Primitive.i.size else (t.numericKind?.map Primitive.size).getD 0

/-- Whether the type is a pointer or a native integer. -/
def isPointerLike (t : Ty) : Bool :=
  t.isPointer || t.primitive?.any Primitive.isNative

/-- Whether the type is a 64-bit integer, or an enumeration over one. -/
def isInt64 (t : Ty) : Bool :=
  t.numericKind?.any Primitive.isInt64

/-- Whether the type is that of truth values. -/
def isBoolean (t : Ty) : Bool :=
  t.primitive? == some .boolean

/-! ### Generic parameters -/

/-- A generic parameter seen apart from its type. -/
structure Parameter where
  /-- The place in the owner's parameter list. -/
  position : Nat
  name? : Option String
  /-- The method that declares the parameter, if it is not the type. -/
  method? : Option String
  /-- The declaring type, or the type of the declaring method. -/
  owner : Ty

/-- The generic parameter that a type is, named by its owner's list where it has no name. -/
def expandedParameter? : Ty → Option Parameter
  | typeParam owner position name? =>
    some
      { position := position
        name? := name?.orElse fun _ => owner.definition?.bind (·.genericParameters[position]?)
        method? := none
        owner := owner }
  | methodParam owner method declared position name? =>
    some
      { position := position
        name? := name?.orElse fun _ => declared[position]?
        method? := some method
        owner := owner }
  | _ => none

/-- The parameter of a type that its owner names; without a name it stays positional. -/
def typeParamOf (owner : Ty) (position : Nat) : Ty :=
  .typeParam owner position (owner.definition?.bind (·.genericParameters[position]?))

/-! ### Substitution -/

mutual

/-- Puts `arguments` for the parameters of the type called `owner`. -/
def substituteFor (owner : String) (arguments : List Ty) : Ty → Ty
  | named d => .named d
  | nested outer d => .nested outer d
  | array element rank => arrayOf (element.substituteFor owner arguments) rank
  | byRef element => .byRef (element.substituteFor owner arguments)
  | pointer element => .pointer (element.substituteFor owner arguments)
  | modified element modifier required =>
    .modified (element.substituteFor owner arguments) modifier required
  | pinned element => .pinned (element.substituteFor owner arguments)
  | inst generic inner => .inst generic (substituteForList owner arguments inner)
  | typeParam declaring position name? =>
    if declaring.fullName == owner then
      arguments[position]?.getD (.typeParam declaring position name?)
    else
      .typeParam declaring position name?
  | methodParam declaring method declared position name? =>
    .methodParam declaring method declared position name?
  | functionPointer result parameters =>
    .functionPointer (result.substituteFor owner arguments)
      (substituteForList owner arguments parameters)

/-- `substituteFor` on every type of a list. -/
def substituteForList (owner : String) (arguments : List Ty) : List Ty → List Ty
  | [] => []
  | t :: ts => t.substituteFor owner arguments :: substituteForList owner arguments ts

end

/-- Puts `arguments` for the parameters of `owner` in `t`. -/
def substitute (t owner : Ty) (arguments : List Ty) : Ty :=
  t.substituteFor owner.fullName arguments

end Ty

end ScriptLowering
