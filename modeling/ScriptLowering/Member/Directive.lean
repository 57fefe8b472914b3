import ScriptLowering.Member.Basic

/-!
# Directives

Directives say how members are lowered beyond their signatures: which are dropped, redirected or
replaced by script text, which arrays are packed, and which methods are accessors of which
properties. They are given by full name; of two directives for one name the later counts.
-/

namespace ScriptLowering

/-- How calls of a method are lowered. -/
structure MethodDirective where
  /-- Calls are dropped and leave a placeholder. -/
  isIgnored : Bool
  /-- Script text for calls, with the receiver and the parameters by name. -/
  replacement? : Option String
  /-- The method that is called instead. -/
  proxy? : Option Method
  /-- Whether the method returns a packed array. -/
  packedReturn : Bool

/-- How accesses of a field are lowered. -/
structure FieldDirective where
  /-- Accesses leave a placeholder. -/
  isIgnored : Bool
  /-- Whether the field holds a packed array. -/
  isPackedArray : Bool

/-- How a type is lowered. -/
structure TypeDirective where
  /-- Whether the members of the type are ignored. -/
  isIgnored : Bool
  /-- Script text that stands for the type. -/
  replacement? : Option String

/-- All directives, by full name. -/
structure Directives where
  methods : List (String × MethodDirective)
  fields : List (String × FieldDirective)
  types : List (String × TypeDirective)
  /-- Properties of accessors, by full name of the accessor. -/
  properties : List (String × Property)
  /-- Whether other accessors are told by their signatures. -/
  derivesProperties : Bool

/-- The last value listed for a key. -/
def lookupLast {α : Type} (key : String) (entries : List (String × α)) : Option α :=
  entries.reverse.lookup key

namespace Directives

/-- No directives; properties are told by signatures. -/
def empty : Directives :=
  ⟨[], [], [], [], true⟩

/-- The directive for a method. -/
def method? (d : Directives) (m : Method) : Option MethodDirective :=
  lookupLast m.fullName d.methods

/-- The directive for a field. -/
def field? (d : Directives) (f : Field) : Option FieldDirective :=
  lookupLast f.fullName d.fields

/-- The directive for a type. -/
def type? (d : Directives) (t : Ty) : Option TypeDirective :=
  lookupLast t.fullName d.types

/-- The property that a method is an accessor of. -/
def property? (d : Directives) (m : Method) : Option Property :=
  match lookupLast m.fullName d.properties with
  | some p => some p
  | none => if d.derivesProperties then m.accessedProperty? else none

end Directives

/-- The answer that is remembered under a name, or else the given one, which is then remembered. -/
def remember {α : Type} (memo : List (String × α)) (name : String) (answer : α) :
    α × List (String × α) :=
  match memo.lookup name with
  | some given => (given, memo)
  | none => (answer, (name, answer) :: memo)

/-- Answers about members and types given so far, by full name. -/
structure MemberMemo where
  methods : List (String × Option MethodDirective)
  fields : List (String × Option FieldDirective)
  types : List (String × Option TypeDirective)
  properties : List (String × Option Property)

namespace MemberMemo

/-- No answers yet. -/
def empty : MemberMemo :=
  ⟨[], [], [], []⟩

/-- The directive for a method. -/
def method? (memo : MemberMemo) (d : Directives) (m : Method) :
    Option MethodDirective × MemberMemo :=
  let (answer, methods) := remember memo.methods m.fullName (d.method? m)
  (answer, { memo with methods })

/-- The directive for a field. -/
def field? (memo : MemberMemo) (d : Directives) (f : Field) : Option FieldDirective × MemberMemo :=
  let (answer, fields) := remember memo.fields f.fullName (d.field? f)
  (answer, { memo with fields })

/-- The directive for a type. -/
def type? (memo : MemberMemo) (d : Directives) (t : Ty) : Option TypeDirective × MemberMemo :=
  let (answer, types) := remember memo.types t.fullName (d.type? t)
  (answer, { memo with types })

/-- The property that a method is an accessor of. -/
def property? (memo : MemberMemo) (d : Directives) (m : Method) : Option Property × MemberMemo :=
  let (answer, properties) := remember memo.properties m.fullName (d.property? m)
  (answer, { memo with properties })

/-- Whether calls of a method are dropped, for its own sake or for that of its type. -/
def ignores (memo : MemberMemo) (d : Directives) (m : Method) : Bool × MemberMemo :=
  let (method?, memo) := memo.method? d m
  if method?.any (·.isIgnored) then
    (true, memo)
  else
    let (type?, memo) := memo.type? d m.declaringType
    (type?.any (·.isIgnored), memo)

end MemberMemo

end ScriptLowering
