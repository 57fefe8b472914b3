import ScriptLowering.Proofs.Numeric.Range
import ScriptLowering.Script.Literal

/-!
# Canonical constants

An integer constant is canonical if its value is one that a slot of its type holds, and so is an
enumeration constant, for the integers under the enumeration. Constants that are given a type with
`Literal.retype?` are canonical, whatever they were before.
-/

namespace ScriptLowering

theorem Primitive.wrap_wrap (k : Primitive) (v : Int64) : k.wrap (k.wrap v) = k.wrap v := by
  cases hk : k.isIntegral with
  | true => exact (wrap_eq_self_iff hk).mpr (holds_wrap hk)
  | false =>
    unfold wrap
    rw [hk]
    by_cases hboolean : k = boolean
    · by_cases hv : v = 0 <;> simp [hboolean, hv]
    · simp [hboolean]

@[simp] theorem Core.primitive?_primitive (c : Core) (k : Primitive) :
    (c.primitive k).primitive? = some k :=
  rfl

/-- An enumeration whose definition carries a primitive kind, which is not that of its integers. -/
def Ty.IsAlso (t : Ty) (k : Primitive) : Prop :=
  t.primitive? = some k ∧ ∃ underlying, t.enumUnderlying? = some underlying ∧ underlying ≠ k

namespace Script.Literal

/-- Whether the value of an integer or enumeration constant is one of its type. -/
def isCanonical : Literal → Bool
  | integer v t => t.primitive?.all fun k => k.wrap v == v
  | enumeration v t _ => t.enumUnderlying?.all fun k => k.wrap v == v
  | _ => true

theorem isCanonical_ofKind {c : Core} {k : Primitive} {v : Int64} (h : k.wrap v = v) :
    (ofKind c k v).isCanonical = true := by
  simp [ofKind, isCanonical, h]

theorem isCanonical_ofKind_wrap (c : Core) (k : Primitive) (v : Int64) :
    (ofKind c k (k.wrap v)).isCanonical = true :=
  isCanonical_ofKind (k.wrap_wrap v)

theorem isCanonical_ofEnum {t : Ty} {k : Primitive} (ht : t.enumUnderlying? = some k) (v : Int64) :
    (ofEnum t (k.wrap v)).isCanonical = true := by
  simp [ofEnum, isCanonical, ht, k.wrap_wrap]

/-- A constant of another type is canonical. -/
theorem isCanonical_of_retype? {l l' : Literal} {target : Ty} (h : l.retype? target = some l') :
    l'.isCanonical = true := by
  unfold retype? at h
  simp only [Option.bind_eq_bind, Option.bind_eq_some_iff] at h
  obtain ⟨value, -, h⟩ := h
  split at h
  · cases h
    rfl
  · split at h
    · next kind hkind =>
      cases h
      exact isCanonical_ofEnum hkind value
    · simp only [Option.bind_eq_some_iff] at h
      obtain ⟨kind, hkind, h⟩ := h
      split at h <;> cases h
      · rfl
      · rfl
      · rfl
      · simp [isCanonical, hkind, kind.wrap_wrap]

end Script.Literal

end ScriptLowering
