import ScriptLowering.Ty.Equality
import Std.Data.HashSet.Basic

/-!
# Assignability

A value of one type can be stored where another type is expected, without a change of
representation, when the types are equal, the target is the object type, both are references or
pointers of one depth to equal types, the source is an array and the target a base or collection
interface of arrays, the source is a pointer and the target a native integer, the source is a
reference and the target a pointer to the same type, or the target is a base type or an interface
of the source.
-/

namespace ScriptLowering

/-! ### Interfaces -/

/-- The state of a search for interfaces. -/
structure InterfaceSearch where
  /-- Interfaces still to visit, the next one first. -/
  pending : List Ty
  /-- Interfaces visited, the latest first. -/
  found : List Ty
  /-- The full names of the interfaces visited. -/
  seen : Std.HashSet String

namespace InterfaceSearch

/-- A search that has visited nothing. -/
def ofPending (pending : List Ty) : InterfaceSearch :=
  ⟨pending, [], ∅⟩

/-- Visits the next interface. One whose name was seen before is dropped; otherwise the interfaces
that it extends are visited before the others, the last one first. -/
def step (h : Hierarchy) (s : InterfaceSearch) : InterfaceSearch :=
  match s.pending with
  | [] => s
  | next :: rest =>
    if s.seen.contains next.fullName then
      { s with pending := rest }
    else
      ⟨(h.interfacesOf next).reverse ++ rest, next :: s.found, s.seen.insert next.fullName⟩

variable (h : Hierarchy)

/-- Visits interfaces until none is pending. Interfaces of generic instances that never repeat a name
can grow forever; then there is no end, and no result. -/
def toEnd? (s : InterfaceSearch) : Option InterfaceSearch :=
  if s.pending.isEmpty then some s
  else by
    apply toEnd?
    exact s.step h
partial_fixpoint

end InterfaceSearch

namespace Hierarchy

/-- The interfaces of the given types and all that they extend, in the order of the visits, if the
search for them ends. -/
def reachableInterfaces? (h : Hierarchy) (types : List Ty) : Option (List Ty) :=
  let start := InterfaceSearch.ofPending (types.flatMap h.interfacesOf).reverse
  (start.toEnd? h).map (·.found.reverse)

/-! ### The relation -/

/-- Whether both types are references or pointers of one depth to equal types. -/
def sameReferent (h : Hierarchy) (target source : Ty) : Bool :=
  target.dereference.2 > 0 && target.dereference.2 == source.dereference.2
    && h.same target.dereference.1 source.dereference.1

/-- Whether an array or pointer of type `source` can be seen as a `target`. -/
def adaptsTo (h : Hierarchy) (target source : Ty) : Bool :=
  match source with
  | .array element rank =>
    h.same target h.core.arrayBase
      || (match target with
          | .inst generic [argument] =>
            rank == 1 && Core.Collection.all.any (·.fullName == generic.fullName)
              && h.same argument element
          | _ => false)
  | .pointer _ => target.primitive?.any Primitive.isNative
  | .byRef element =>
    match target with
    | .pointer element' => h.same element' element
    | _ => false
  | _ => false

/-- Whether `target` is found to be an interface of `source` or of one of its bases, or a base of such
an interface. Nothing is found by a search without an end. -/
def implements (h : Hierarchy) (target source : Ty) : Bool :=
  (h.reachableInterfaces? (source :: h.baseChain source)).any fun found =>
    found.any fun i => h.same target i || h.inBases i target false

/-- Whether a value of type `source` can be stored as a `target` for another reason than an
interface. -/
def isDirectlyAssignable (h : Hierarchy) (target source : Ty) : Bool :=
  h.same target source
    || h.isObject target.strip
    || h.sameReferent target.strip source.strip
    || h.adaptsTo target.strip source.strip
    || h.inBases source.strip target.strip false

/-- Whether a value of type `source` can be stored as a `target` without a change of
representation. Interfaces are only searched where nothing else decides. -/
def isAssignable (h : Hierarchy) (target source : Ty) : Bool :=
  h.isDirectlyAssignable target source || h.implements target.strip source.strip

end Hierarchy

/-! ### Earlier answers -/

/-- Answers given so far, by the full names of target and source. -/
structure AssignableMemo where
  answers : List ((String × String) × Bool)

namespace AssignableMemo

/-- No answers yet. -/
def empty : AssignableMemo :=
  ⟨[]⟩

/-- The number of answers. -/
def size (m : AssignableMemo) : Nat :=
  m.answers.length

/-- Answers from memory, or computes the answer and keeps it. -/
def ask (m : AssignableMemo) (h : Hierarchy) (target source : Ty) : Bool × AssignableMemo :=
  let key := (target.fullName, source.fullName)
  match m.answers.lookup key with
  | some answer => (answer, m)
  | none =>
    let answer := h.isAssignable target source
    (answer, ⟨(key, answer) :: m.answers⟩)

end AssignableMemo

end ScriptLowering
