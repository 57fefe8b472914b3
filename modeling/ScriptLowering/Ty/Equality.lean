import ScriptLowering.Ty.Agreement
import ScriptLowering.Ty.Registry

/-!
# Equality of types

Two types are equal when they agree, where owners of generic parameters are related if one derives
from a type equal to the other. Loose equality ignores modifiers and pins; strict equality compares
them.
-/

namespace ScriptLowering

namespace Hierarchy

/-- Whether one of two types derives from a type that is the `same` as the other. -/
def derives (h : Hierarchy) (same : Ty → Ty → Bool) (a b : Ty) : Bool :=
  (h.baseChain a).any (same · b) || (h.baseChain b).any (same · a)

/-- Equality with at most `n` crossings from generic parameters into base chains. -/
def equalUpTo (h : Hierarchy) : Nat → Ty → Bool → Ty → Bool
  | 0, a, strict, b => (Ty.agreement (fun _ _ => false) a strict b).val
  | n + 1, a, strict, b =>
    (Ty.agreement (h.derives fun a b => h.equalUpTo n a false b) a strict b).val

/-- Without crossings, equality is agreement. -/
theorem equalUpTo_zero (h : Hierarchy) (a : Ty) (strict : Bool) (b : Ty) :
    h.equalUpTo 0 a strict b = Ty.agrees (fun _ _ => false) a strict b :=
  (Ty.agreement (fun _ _ => false) a strict b).property

/-- With crossings, equality is agreement with owners that derive from each other. -/
theorem equalUpTo_succ (h : Hierarchy) (n : Nat) (a : Ty) (strict : Bool) (b : Ty) :
    h.equalUpTo (n + 1) a strict b
      = Ty.agrees (h.derives fun a b => h.equalUpTo n a false b) a strict b :=
  (Ty.agreement (h.derives fun a b => h.equalUpTo n a false b) a strict b).property

/-- The number of crossings that equality follows, far more than types that are written down
need. -/
def maxCrossings : Nat :=
  65536

/-- Whether two types are the same; loosely, modifiers and pins are ignored. -/
def equal (h : Hierarchy) (a b : Ty) (strict : Bool) : Bool :=
  h.equalUpTo maxCrossings a strict b

/-- Whether two types are the same up to modifiers and pins. -/
def same (h : Hierarchy) (a b : Ty) : Bool :=
  h.equal a b false

/-- Whether `base` is in the base chain of `t`. -/
def inBases (h : Hierarchy) (t base : Ty) (strict : Bool) : Bool :=
  (h.baseChain t).any (h.equal · base strict)

/-- Whether a type is the universal object type. -/
def isObject (h : Hierarchy) (t : Ty) : Bool :=
  h.same t h.core.object

/-- Whether a type is text. -/
def isString (h : Hierarchy) (t : Ty) : Bool :=
  h.same t h.core.string

/-- Whether a type is the result type of what has no result. -/
def isVoid (h : Hierarchy) (t : Ty) : Bool :=
  h.same t h.core.void

end Hierarchy

end ScriptLowering
