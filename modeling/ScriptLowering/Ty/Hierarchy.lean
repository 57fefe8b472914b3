import ScriptLowering.Ty.Core

/-!
# What definitions derive from

A `Hierarchy` holds the base type and the interfaces of definitions, by definition number. The base
type of a definition is set once; interfaces are added in order. Both are answered for any type
(`baseOf?`, `interfacesOf`), with the arguments of a generic instance put in for the parameters of
its definition.
-/

namespace ScriptLowering

/-- Base types and interfaces by definition number. -/
structure Hierarchy where
  core : Core
  /-- At most one base type per definition. -/
  bases : List (Nat × Ty)
  /-- The interfaces, in the order in which they were added. -/
  interfaces : List (Nat × Ty)

namespace Hierarchy

/-- The base type of a definition. -/
def base? (h : Hierarchy) (d : Definition) : Option Ty :=
  h.bases.lookup d.id

/-- The interfaces of a definition. -/
def declaredInterfaces (h : Hierarchy) (d : Definition) : List Ty :=
  (h.interfaces.filter (·.1 == d.id)).map (·.2)

/-- Sets the base type of a definition that has none; answers whether it did. -/
def setBase (h : Hierarchy) (d : Definition) (base : Ty) : Hierarchy × Bool :=
  if (h.base? d).isSome then (h, false)
  else ({ h with bases := h.bases ++ [(d.id, base)] }, true)

/-- Adds an interface to a definition. -/
def addInterface (h : Hierarchy) (d : Definition) (i : Ty) : Hierarchy :=
  { h with interfaces := h.interfaces ++ [(d.id, i)] }

/-- Sets the base type of a type that is defined by a definition without one. -/
def derive (h : Hierarchy) (t base : Ty) : Hierarchy :=
  match t.definition? with
  | some d => (h.setBase d base).1
  | none => h

/-- What the core types derive from. -/
def ofCore (c : Core) : Hierarchy :=
  let fromObject :=
    [c.valueType, c.arrayBase, c.string, c.delegate, c.type, c.exception, Core.packedArray]
  let fromValueType :=
    [c.enumBase, c.void, c.decimal, c.nullable, c.typeHandle, c.fieldHandle, c.methodHandle]
      ++ Primitive.all.map c.primitive
  let entry (t base : Ty) : Option (Nat × Ty) := t.definition?.map fun d => (d.id, base)
  let extended (i : Core.Collection) : Option (Nat × Ty) := do
    let parent ← i.parent?
    let child := c.collectionInterface i
    entry child (.inst (c.collectionInterface parent) [child.typeParamOf 0])
  { core := c
    bases :=
      fromObject.filterMap (entry · c.object) ++ fromValueType.filterMap (entry · c.valueType)
        ++ (entry c.multicastDelegate c.delegate).toList
    interfaces := Core.Collection.all.filterMap extended }

/-- The direct base type of a type. -/
def baseOf? (h : Hierarchy) : Ty → Option Ty
  | .named d => h.base? d
  | .nested _ d => h.base? d
  | .inst generic arguments =>
    (generic.definition?.bind h.base?).map (·.substitute generic arguments)
  | .array .. => some h.core.arrayBase
  | .modified element _ _ => h.baseOf? element
  | .pinned element => h.baseOf? element
  | _ => none

/-- The longest base chain that is followed. -/
def maxBaseDepth : Nat :=
  64

/-- At most `n` bases of a type, nearest first. -/
def basesUpTo (h : Hierarchy) : Nat → Ty → List Ty
  | 0, _ => []
  | n + 1, t =>
    match h.baseOf? t with
    | some base => base :: h.basesUpTo n base
    | none => []

/-- The base chain of a type, nearest first. -/
def baseChain (h : Hierarchy) (t : Ty) : List Ty :=
  h.basesUpTo maxBaseDepth t

/-- The interfaces that a type names itself. -/
def interfacesOf (h : Hierarchy) : Ty → List Ty
  | .named d => h.declaredInterfaces d
  | .nested _ d => h.declaredInterfaces d
  | .inst generic arguments =>
    match generic.definition? with
    | some d => (h.declaredInterfaces d).map (·.substitute generic arguments)
    | none => []
  | .modified element _ _ => h.interfacesOf element
  | .pinned element => h.interfacesOf element
  | _ => []

end Hierarchy

end ScriptLowering
