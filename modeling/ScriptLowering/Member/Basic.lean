import ScriptLowering.Ty.Basic

/-!
# Methods, fields and properties

The signatures of the members that instructions refer to. Two members are the same when their full
names are.
-/

namespace ScriptLowering

/-- The attributes of a method that matter to calls. -/
structure MethodFlags where
  isStatic : Bool
  isVirtual : Bool
  /-- A sealed override. -/
  isFinal : Bool
  isAbstract : Bool
  isNewSlot : Bool
  /-- Property accessors, operators and constructors. -/
  hasSpecialName : Bool
  deriving DecidableEq

namespace MethodFlags

/-- No attribute. -/
def empty : MethodFlags :=
  ⟨false, false, false, false, false, false⟩

/-- The attributes as bits, lowest first. -/
def toBits (f : MethodFlags) : Nat :=
  f.isStatic.toNat + 2 * f.isVirtual.toNat + 4 * f.isFinal.toNat + 8 * f.isAbstract.toNat
    + 16 * f.isNewSlot.toNat + 32 * f.hasSpecialName.toNat

end MethodFlags

/-- A parameter of a method. -/
structure MethodParameter where
  name : String
  /-- A reference type for parameters passed by reference. -/
  type : Ty

/-- The signature and attributes of a method. -/
structure Method where
  name : String
  /-- A generic instance for members of instantiated types. -/
  declaringType : Ty
  returnType : Ty
  /-- The parameters without the receiver. -/
  parameters : List MethodParameter
  /-- Arguments of a generic method. -/
  genericArguments : List Ty
  flags : MethodFlags

namespace Method

/-- Return type, declaring type, name and parameter types. -/
def fullName (m : Method) : String :=
  m.returnType.fullName ++ " " ++ m.declaringType.fullName ++ "::" ++ m.name ++ "("
    ++ ",".intercalate (m.parameters.map (·.type.fullName)) ++ ")"

instance : BEq Method :=
  ⟨fun a b => a.fullName == b.fullName⟩

/-- Whether the method has no receiver. -/
def isStatic (m : Method) : Bool :=
  m.flags.isStatic

/-- Whether the method is virtual. -/
def isVirtual (m : Method) : Bool :=
  m.flags.isVirtual

/-- Whether a virtual method can still be overridden. -/
def isOverridable (m : Method) : Bool :=
  m.flags.isVirtual && !m.flags.isFinal && !m.declaringType.isSealed

/-- Whether the method is an instance or static constructor. -/
def isConstructor (m : Method) : Bool :=
  m.name == ".ctor" || m.name == ".cctor"

/-- Whether the declaring type is called `name` in `namespaceName`. -/
def isDeclaredBy (m : Method) (namespaceName name : String) : Bool :=
  m.declaringType.isNamed namespaceName name

/-- The text of a method in messages. -/
def debugText (m : Method) : String :=
  "MethodDescriptor(" ++ m.fullName ++ ")"

end Method

/-- The signature of a field. -/
structure Field where
  name : String
  declaringType : Ty
  type : Ty
  isStatic : Bool
  /-- The bytes of a field that is mapped to a data blob. -/
  initialData? : Option (List UInt8)

namespace Field

/-- Type, declaring type and name. -/
def fullName (f : Field) : String :=
  f.type.fullName ++ " " ++ f.declaringType.fullName ++ "::" ++ f.name

instance : BEq Field :=
  ⟨fun a b => a.fullName == b.fullName⟩

/-- The text of a field in messages. -/
def debugText (f : Field) : String :=
  "FieldDescriptor(" ++ f.fullName ++ ")"

end Field

/-- A property and its accessors. -/
structure Property where
  name : String
  declaringType : Ty
  type : Ty
  getter? : Option Method
  setter? : Option Method
  isStatic : Bool

namespace Property

/-- Type, declaring type and name. -/
def fullName (p : Property) : String :=
  p.type.fullName ++ " " ++ p.declaringType.fullName ++ "::" ++ p.name

instance : BEq Property :=
  ⟨fun a b => a.fullName == b.fullName⟩

/-- The text of a property in messages. -/
def debugText (p : Property) : String :=
  "PropertyDescriptor(" ++ p.fullName ++ ")"

end Property

/-- What follows `start` in a name. -/
def nameAfter? (start name : String) : Option String :=
  if start.toList.isPrefixOf name.toList then
    some (String.ofList (name.toList.drop start.length))
  else
    none

namespace Method

/-- The property of an accessor, told by its name and signature: getters return the property's
value and setters take it last. -/
def accessedProperty? (m : Method) : Option Property :=
  if m.flags.hasSpecialName then
    match nameAfter? "get_" m.name with
    | some name =>
      some
        { name := name
          declaringType := m.declaringType
          type := m.returnType
          getter? := some m
          setter? := none
          isStatic := m.isStatic }
    | none => do
      let name ← nameAfter? "set_" m.name
      let value ← m.parameters.getLast?
      some
        { name := name
          declaringType := m.declaringType
          type := value.type
          getter? := none
          setter? := some m
          isStatic := m.isStatic }
  else
    none

end Method

end ScriptLowering
