import ScriptLowering.Proofs.Script.Tree
import ScriptLowering.Proofs.Ty.World

/-!
# Types of trees

The type of a node follows from its form and from the types of its operands, and only their loose
shapes matter: operands of like types leave the type of a node alike (`Node.computedType_like`).
`Node.TypedOver` says that the types of all nodes of a tree are regular types over a world.
-/

namespace ScriptLowering.Script.Node

variable {c : Core} {r : Retyping} {world : Ty → Prop} {applied : Prop} {form : Form}

/-! ### Operands of like types -/

/-- Nodes of like types. -/
def LikeTyped (c : Core) (r : Retyping) (n m : Node) : Prop :=
  (n.computedType c r).Like (m.computedType c r)

variable {operands operands' : List Node}

section

variable (h : List.Forall₂ (LikeTyped c r) operands operands')
include h

theorem typeAt_like (index : Nat) :
    (typeAt c r operands index).Like (typeAt c r operands' index) := by
  induction h generalizing index with
  | nil => exact .refl _
  | cons hfirst _ ih =>
    cases index with
    | zero =>
      rw [typeAt, typeAt]
      exact hfirst
    | succ index =>
      rw [typeAt, typeAt]
      exact ih index

theorem lastType_like : (lastType c r operands).Like (lastType c r operands') := by
  induction h with
  | nil => exact .refl _
  | cons hfirst hrest ih =>
    cases hrest with
    | nil =>
      rw [lastType, lastType]
      exact hfirst
    | cons _ _ =>
      rw [lastType, lastType]
      exact ih

theorem computedType_like : LikeTyped c r ⟨form, operands⟩ ⟨form, operands'⟩ := by
  have hfirst := typeAt_like h 0
  -- A type is known, or made of that of one operand in a way that keeps loose shapes.
  unfold LikeTyped
  simp only [computedType]
  cases form.typeRule c r with
  | known t => exact .refl t
  | operand index => exact typeAt_like h index
  | referenceToFirst => exact congrArg Ty.byRef hfirst
  | referentOfFirst => exact hfirst.referent
  | pointerToReferent => exact congrArg Ty.pointer hfirst.referent
  | last => exact lastType_like h

end

/-! ### Trees over a world -/

/-- A tree whose nodes all have regular types over a world. -/
def TypedOver (c : Core) (r : Retyping) (world : Ty → Prop) (applied : Prop) (n : Node) : Prop :=
  ∀ m ∈ n.selfAndDescendants, (m.computedType c r).Regular world applied

theorem typedOver_mk :
    TypedOver c r world applied ⟨form, operands⟩
      ↔ (computedType c r ⟨form, operands⟩).Regular world applied
        ∧ ∀ o ∈ operands, o.TypedOver c r world applied := by
  simp only [TypedOver, selfAndDescendants_mk, List.forall_mem_cons, List.forall_mem_flatMap]

/-- The type of a tree over a world. -/
theorem TypedOver.root {n : Node} (h : n.TypedOver c r world applied) :
    (n.computedType c r).Regular world applied :=
  h n List.mem_cons_self

variable (hvoid : c.void.Regular world applied)
include hvoid

theorem regular_typeAt :
    ∀ {operands : List Node}, (∀ o ∈ operands, o.TypedOver c r world applied) → ∀ index,
      (typeAt c r operands index).Regular world applied
  | [], _, _ => hvoid
  | _ :: _, h, 0 => (List.forall_mem_cons.mp h).1.root
  | _ :: _, h, index + 1 => regular_typeAt (List.forall_mem_cons.mp h).2 index

theorem regular_lastType :
    ∀ {operands : List Node}, (∀ o ∈ operands, o.TypedOver c r world applied) →
      (lastType c r operands).Regular world applied
  | [], _ => hvoid
  | [_], h => (List.forall_mem_cons.mp h).1.root
  | _ :: _ :: _, h => by
    rw [lastType]
    exact regular_lastType (List.forall_mem_cons.mp h).2

theorem TypedOver.replace (h : TypedOver c r world applied ⟨form, operands⟩)
    (hoperands : ∀ o ∈ operands', o.TypedOver c r world applied) :
    TypedOver c r world applied ⟨form, operands'⟩ := by
  refine typedOver_mk.mpr ⟨?_, hoperands⟩
  have hroot := h.root
  have hfirst := regular_typeAt hvoid hoperands 0
  simp only [computedType] at hroot ⊢
  cases hrule : form.typeRule c r with
  | known t => rw [hrule] at hroot; exact hroot
  | operand index => exact regular_typeAt hvoid hoperands index
  | referenceToFirst => exact hfirst.byRef
  | referentOfFirst => exact hfirst.referent
  | pointerToReferent => exact hfirst.referent.pointer
  | last => exact regular_lastType hvoid hoperands

end ScriptLowering.Script.Node
