import ScriptLowering.Proofs.Canonical.Expansion
import ScriptLowering.Proofs.Canonical.Reduction
import ScriptLowering.Proofs.Ty.Shape

/-!
# Expanded casts

A cast is replaced by an expression made of its operand. That may be the operand itself, and then
one thing has to be ruled out: that a member reference comes to stand where none was. It does not,
because a cast is left out only between types of which both or neither are references
(`Ty.isByRef_eq_of_agrees`), and a cast to a reference counts as a possible member reference
already.
-/

namespace ScriptLowering

/-! ### Types that agree -/

namespace Ty

theorem isByRef_strip : ∀ t : Ty, t.strip.isByRef = t.isByRef :=
  ask_strip (fun _ _ _ => rfl) (fun _ => rfl)

/-- Generic parameters are no references. -/
theorem isByRef_of_expandedParameter? {t : Ty} {p : Parameter} (h : t.expandedParameter? = some p) :
    t.isByRef = false := by
  cases t <;> simp [expandedParameter?] at h <;> rfl

theorem isByRef_compared (t : Ty) (strict : Bool) :
    (if strict then t else t.strip).isByRef = t.isByRef := by
  cases strict <;> simp [isByRef_strip]

theorem isByRef_eq_of_agrees {related : Ty → Ty → Bool} :
    ∀ {a : Ty} {strict : Bool} {b : Ty}, agrees related a strict b = true → a.isByRef = b.isByRef
  -- Strictly compared, wrappers stand on both sides; loosely, they are looked through.
  | modified element _ _, true, b, h | pinned element, true, b, h => by
    cases b <;> simp [agrees] at h
    simp only [isByRef]
    exact isByRef_eq_of_agrees (by first | exact h | exact h.2)
  | modified element _ _, false, b, h | pinned element, false, b, h => by
    simp only [agrees, Bool.false_eq_true, if_false] at h
    simp only [isByRef]
    exact isByRef_eq_of_agrees h
  | typeParam .., strict, b, h | methodParam .., strict, b, h => by
    simp only [agrees] at h
    split at h
    · next hq =>
      rw [← isByRef_compared b strict, isByRef_of_expandedParameter? hq]
      rfl
    · cases h
  | named _, strict, b, h | nested _ _, strict, b, h | array _ _, strict, b, h
  | byRef _, strict, b, h | pointer _, strict, b, h | inst _ _, strict, b, h
  | functionPointer _ _, strict, b, h => by
    simp only [agrees] at h
    split at h
    · next hb =>
      rw [← isByRef_compared b strict, hb]
      rfl
    · cases h

end Ty

theorem Hierarchy.isByRef_eq_of_equal {h : Hierarchy} {a b : Ty} {strict : Bool}
    (heq : h.equal a b strict = true) : a.isByRef = b.isByRef := by
  unfold equal at heq
  generalize maxCrossings = crossings at heq
  cases crossings with
  | zero => exact Ty.isByRef_eq_of_agrees (h.equalUpTo_zero a strict b ▸ heq)
  | succ n => exact Ty.isByRef_eq_of_agrees (h.equalUpTo_succ n a strict b ▸ heq)

/-- Truth values are no references. -/
theorem Ty.isByRef_of_isBoolean {t : Ty} (h : t.isBoolean = true) : t.isByRef = false := by
  have hprimitive : t.primitive?.isSome = true := by
    rw [beq_iff_eq.mp h]
    rfl
  clear h
  fun_induction Ty.primitive? t <;> simp_all [Ty.isByRef]

namespace Canonical

open Script Lowering

variable {derived : Prop} {vars : List Variable} {around : List Enclosure}

/-! ### Values of a cast -/

/-- An expression that may stand for a cast to a type: it is no passed argument, and a member
reference only if the type is a reference. -/
structure Converts (derived : Prop) (vars : List Variable) (around : List Enclosure) (target : Ty)
    (r : Node) : Prop where
  expression : r.IsExpression derived vars around
  passing : derived → r.form.isPassing = false
  member : r.form.mayBeMember = true → target.isByRef = true

variable {h : Hierarchy} {r : Retyping} {value n : Node} {source target : Ty} {checked : Bool}

theorem Converts.standsFor {operands : List Node} (hn : Converts derived vars around target n)
    (hcast : Node.IsExpression derived vars around ⟨.cast target checked, operands⟩) :
    n.StandsFor derived ⟨.cast target checked, operands⟩ where
  statement := hn.expression.1
  form h := by cases h
  loops := by rw [hn.expression.loopIndices_eq_nil, hcast.loopIndices_eq_nil]
  location _ h := by cases h
  member _ h := hn.member h
  passing hd h := by simp [hn.passing hd] at h

theorem Converts.congr (hn : Converts derived vars around source n)
    (htypes : source.isByRef = target.isByRef) : Converts derived vars around target n :=
  { hn with member := fun h => htypes ▸ hn.member h }

/-- A value converts to its own type. -/
theorem converts_self (c : Core) (r : Retyping) (hvalue : value.IsExpression derived vars around)
    (hpassing : derived → value.form.isPassing = false) :
    Converts derived vars around (value.computedType c r) value :=
  ⟨hvalue, hpassing, fun h => Node.isByRef_of_mayBeMember h c r⟩

theorem converts_ordinary (hn : n.IsExpression derived vars around)
    (hpassing : n.form.isPassing = false) (hmember : n.form.mayBeMember = false) :
    Converts derived vars around target n :=
  ⟨hn, fun _ => hpassing, fun h => by simp [hmember] at h⟩

/-- A constant converts to any type. -/
theorem converts_literal {l : Literal} : Converts derived vars around target (.literal l) :=
  converts_ordinary Node.isExpression_literal rfl rfl

section

variable (hvalue : value.IsExpression derived vars around)
  (hpassing : derived → value.form.isPassing = false)
include hvalue hpassing

/-- A cast converts to its type. -/
theorem converts_cast : Converts derived vars around target (.cast value target checked) :=
  ⟨Node.isExpression_cast.mpr ⟨hpassing, hvalue⟩, fun _ => rfl, fun h => h⟩

theorem converts_changeType : Converts derived vars around target (.changeType value target) :=
  converts_ordinary (Node.isExpression_changeType.mpr ⟨hpassing, hvalue⟩) rfl rfl

theorem converts_conversion {kind : ConversionKind} {type : Ty} :
    Converts derived vars around target (.conversion value kind type checked) :=
  converts_ordinary (Node.isExpression_conversion.mpr ⟨hpassing, hvalue⟩) rfl rfl

end

/-! ### Enumerations -/

theorem isPassing_of_isTransparent {form : Form} {o : Node} (hform : isTransparent form = true)
    (hdemands : form.Demands o) : o.form.isPassing = false := by
  cases form <;> first | exact hdemands | cases hform

theorem innermost_spec {c : Core} {kind : Primitive} (hn : n.IsExpression derived vars around)
    (hpassing : derived → n.form.isPassing = false) :
    (innermost c r kind n).IsExpression derived vars around
      ∧ (derived → (innermost c r kind n).form.isPassing = false) := by
  refine innermost_of (p := fun m => m.IsExpression derived vars around
    ∧ (derived → m.form.isPassing = false)) c r kind ?_ ⟨hn, hpassing⟩
  intro form operand rest hform ⟨hm, _⟩
  refine ⟨hm.operand List.mem_cons_self, fun hd => ?_⟩
  exact isPassing_of_isTransparent hform ((hm.sound hd).operands operand List.mem_cons_self)

section

variable {kind : Primitive} {checked : Bool} (hvalue : value.IsExpression derived vars around)
  (hpassing : derived → value.form.isPassing = false)
include hvalue hpassing

theorem converts_enumInteger :
    Converts derived vars around (h.core.primitive kind) (enumInteger h r value kind) := by
  obtain ⟨hinner, hinnerPassing⟩ :
      (innermost h.core r kind value).IsExpression derived vars around ∧ _ :=
    innermost_spec hvalue hpassing
  unfold enumInteger
  simp only
  split
  · next heq =>
    exact (converts_self h.core r hinner hinnerPassing).congr (Hierarchy.isByRef_eq_of_equal heq)
  · split
    · exact converts_conversion hinner hinnerPassing
    · exact converts_changeType hinner hinnerPassing

/-! ### Expanded casts -/

theorem converts_same (htypes : Coincide h target (value.computedType h.core r)) :
    Converts derived vars around target value := by
  cases htypes with
  | equal hequal =>
    exact (converts_self h.core r hvalue hpassing).congr (Hierarchy.isByRef_eq_of_equal hequal).symm
  | truth _ hboolean =>
    -- A truth value is no reference.
    refine ⟨hvalue, hpassing, fun hmember => ?_⟩
    have hbyRef := Node.isByRef_of_mayBeMember hmember h.core r
    rw [Ty.isByRef_of_isBoolean hboolean] at hbyRef
    cases hbyRef

theorem Expansion.converts (hn : Expansion h r value target checked n) :
    Converts derived vars around target n := by
  have hinteger (kind : Primitive) : Converts derived vars around _ (enumInteger h r value kind) :=
    converts_enumInteger hvalue hpassing
  cases hn with
  | same htypes => exact converts_same hvalue hpassing htypes
  | constant _ => exact converts_literal
  | upcast _ _ | changed _ _ _ _ _ => exact converts_changeType hvalue hpassing
  | test _ _ =>
    exact converts_ordinary (Node.isExpression_operation rfl hvalue Node.isExpression_literal) rfl
      rfl
  | choice _ _ => exact converts_ordinary (by simpa using hvalue) rfl rfl
  | integer _ hequal => exact (hinteger _).congr (Hierarchy.isByRef_eq_of_equal hequal).symm
  | integerCast _ => exact converts_cast (hinteger _).expression (hinteger _).passing
  | @member kind _ _ =>
    have hcast : Converts derived vars around _ (.cast value (h.core.primitive kind) checked) :=
      converts_cast hvalue hpassing
    exact converts_conversion hcast.expression hcast.passing
  | conversion => exact converts_conversion hvalue hpassing
  | call => exact converts_ordinary (Node.isExpression_intrinsic.mpr (by simpa using hvalue)) rfl rfl

end

/-- Expanding casts keeps trees formed. -/
theorem castExpansion_preserves {emulateInt64 : Bool} (scope : Scope) :
    (castExpansion h r emulateInt64).Preserves derived fun _ => scope := by
  intro n memo around hn
  refine ⟨.refl _, fun m hm => ?_⟩
  simp only [castExpansion] at hm
  split at hm
  · next target checked value rest =>
    have hcast : Node.IsExpression derived scope.allVariables around
        ⟨.cast target checked, value :: rest⟩ := ⟨rfl, hn⟩
    have hm : Converts derived scope.allVariables around target m :=
      (expansion_expandCast? (Except.ok.inj hm)).converts (hcast.operand List.mem_cons_self)
        fun hd => (hcast.sound hd).operands value List.mem_cons_self
    exact ⟨hm.expression.2, hm.standsFor hcast⟩
  · cases hm

end Canonical

end ScriptLowering
