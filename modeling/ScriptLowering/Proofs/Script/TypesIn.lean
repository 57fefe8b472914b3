import ScriptLowering.Proofs.Script.Tree

/-!
# The types of a tree

The types that members, constants and forms mention (`Form.types`), and trees all of whose types
are of a given set (`Node.TypesIn`), with one lemma for each way to make a node.
-/

namespace ScriptLowering

/-- The types of a signature. -/
def Method.types (m : Method) : List Ty :=
  m.declaringType :: m.returnType :: m.parameters.map (·.type)

theorem Method.parameter_mem_types {m : Method} {p : MethodParameter} (hp : p ∈ m.parameters) :
    p.type ∈ m.types :=
  List.mem_cons_of_mem _ (List.mem_cons_of_mem _ (List.mem_map_of_mem hp))

/-- The types of a field. -/
def Field.types (f : Field) : List Ty :=
  [f.declaringType, f.type]

/-- The types of a property and of its accessors. -/
def Property.types (p : Property) : List Ty :=
  p.declaringType :: p.type :: (p.getter?.toList ++ p.setter?.toList).flatMap Method.types

namespace Script

/-- The types that a constant mentions. -/
@[simp]
def Literal.types : Literal → List Ty
  | boolean _ | string _ | char _ | decimal _ => []
  | integer _ t | float _ t | enumeration _ t _ | defaultOf t | null t | pointer _ t | typeHandle t
  | typeOf t => [t]
  | methodHandle m => m.types
  | fieldHandle f => f.types

/-- The types that a form mentions. -/
@[simp]
def Form.types : Form → List Ty
  | literal l => l.types
  | var v => [v.declaredType]
  | methodIdentifier m | invocation m _ _ => m.types
  | fieldIdentifier f | memberReference f | fieldAccess f => f.types
  | propertyIdentifier p | propertyAccess p => p.types
  | newObject constructor t => t :: constructor.types
  | typeIdentifier t | unary _ t | binary _ t | ternary t | intrinsicCall _ t | elementReference t
  | pointerRead _ t | pointerWrite _ t | pointerAdd t | newBoxedVariable t | cast t _ | changeType t
  | conversion _ t _ | typeTest t | asCast t | nullableWrap t | nullableUnwrap t | elementAccess t
  | arrayLiteral t | newArray t _ | verbatim _ _ t | ignoredMember _ t => [t]
  | tryCatch var? => var?.toList.map (·.declaredType)
  | _ => []

namespace Node

/-- Trees that mention only types of a set. -/
inductive TypesIn (types : Ty → Prop) : Node → Prop where
  | mk {form : Form} {operands : List Node} (form_types : ∀ t ∈ form.types, types t)
      (operands_types : ∀ o ∈ operands, o.TypesIn types) : TypesIn types ⟨form, operands⟩

variable {types : Ty → Prop}

@[simp]
theorem typesIn_mk {form : Form} {operands : List Node} :
    TypesIn types ⟨form, operands⟩
      ↔ (∀ t ∈ form.types, types t) ∧ ∀ o ∈ operands, o.TypesIn types := by
  constructor
  · intro h
    cases h with
    | mk hform hoperands => exact ⟨hform, hoperands⟩
  · exact fun h => .mk h.1 h.2

variable {t : Ty} {n value : Node}

theorem TypesIn.form (h : n.TypesIn types) : ∀ t ∈ n.form.types, types t := by
  cases h with
  | mk hform _ => exact hform

theorem TypesIn.operand {o : Node} (h : n.TypesIn types) (ho : o ∈ n.operands) :
    o.TypesIn types := by
  cases h with
  | mk _ hoperands => exact hoperands o ho

/-! ### Constructors -/

@[simp]
theorem typesIn_empty : empty.TypesIn types := by
  simp [empty]

@[simp]
theorem typesIn_literal {l : Literal} : (literal l).TypesIn types ↔ ∀ t ∈ l.types, types t := by
  simp [literal]

@[simp]
theorem typesIn_boolean {value : Bool} : (boolean value).TypesIn types := by
  simp [boolean]

@[simp]
theorem typesIn_nullOf : (nullOf t).TypesIn types ↔ types t := by
  simp [nullOf]

@[simp]
theorem typesIn_defaultOf : (defaultOf t).TypesIn types ↔ types t := by
  simp [defaultOf]

@[simp]
theorem typesIn_integer {c : Core} {kind : Primitive} {value : Int64} :
    (integer c kind value).TypesIn types ↔ types (c.primitive kind) := by
  simp [integer, Literal.ofKind]

@[simp]
theorem typesIn_ofVariable {v : Variable} : (ofVariable v).TypesIn types ↔ types v.declaredType := by
  simp [ofVariable]

@[simp]
theorem typesIn_typeIdentifier : (typeIdentifier t).TypesIn types ↔ types t := by
  simp [typeIdentifier]

@[simp]
theorem typesIn_unary {op : UnaryOp} {operand : Node} :
    (unary op operand t).TypesIn types ↔ types t ∧ operand.TypesIn types := by
  simp [unary]

@[simp]
theorem typesIn_binary {op : BinaryOp} {left right : Node} :
    (binary op left right t).TypesIn types
      ↔ types t ∧ left.TypesIn types ∧ right.TypesIn types := by
  simp [binary]

@[simp]
theorem typesIn_ternary {condition whenTrue whenFalse : Node} :
    (ternary condition whenTrue whenFalse t).TypesIn types
      ↔ types t ∧ condition.TypesIn types ∧ whenTrue.TypesIn types ∧ whenFalse.TypesIn types := by
  simp [ternary]

@[simp]
theorem typesIn_cast {checked : Bool} :
    (cast value t checked).TypesIn types ↔ types t ∧ value.TypesIn types := by
  simp [cast]

@[simp]
theorem typesIn_changeType :
    (changeType value t).TypesIn types ↔ types t ∧ value.TypesIn types := by
  simp [changeType]

@[simp]
theorem typesIn_conversion {kind : ConversionKind} {checked : Bool} :
    (conversion value kind t checked).TypesIn types ↔ types t ∧ value.TypesIn types := by
  simp [conversion]

@[simp]
theorem typesIn_invocation {m : Method} {dispatch : Dispatch} {explicitThis : Bool}
    {receiver : Node} {arguments : List Node} :
    (invocation m dispatch explicitThis receiver arguments).TypesIn types
      ↔ (∀ t ∈ m.types, types t) ∧ receiver.TypesIn types
        ∧ ∀ a ∈ arguments, a.TypesIn types := by
  simp [invocation]

@[simp]
theorem typesIn_intrinsic {name : String} {arguments : List Node} :
    (intrinsic name t arguments).TypesIn types
      ↔ types t ∧ ∀ a ∈ arguments, a.TypesIn types := by
  simp [intrinsic]

@[simp]
theorem typesIn_fieldAccess {f : Field} {target : Node} :
    (fieldAccess f target).TypesIn types ↔ (∀ t ∈ f.types, types t) ∧ target.TypesIn types := by
  simp [fieldAccess]

@[simp]
theorem typesIn_elementAccess {array : Node} {indices : List Node} :
    (elementAccess t array indices).TypesIn types
      ↔ types t ∧ array.TypesIn types ∧ ∀ i ∈ indices, i.TypesIn types := by
  simp [elementAccess]

@[simp]
theorem typesIn_propertyAccess {p : Property} {target : Node} {indices : List Node} :
    (propertyAccess p target indices).TypesIn types
      ↔ (∀ t ∈ p.types, types t) ∧ target.TypesIn types ∧ ∀ i ∈ indices, i.TypesIn types := by
  simp [propertyAccess]

@[simp]
theorem typesIn_dereference {reference : Node} :
    (dereference reference).TypesIn types ↔ reference.TypesIn types := by
  simp [dereference]

@[simp]
theorem typesIn_structCopy : (structCopy value).TypesIn types ↔ value.TypesIn types := by
  simp [structCopy]

@[simp]
theorem typesIn_block {statements : List Node} :
    (block statements).TypesIn types ↔ ∀ s ∈ statements, s.TypesIn types := by
  simp [block]

theorem TypesIn.comma {ns : List Node} (h : ∀ n ∈ ns, n.TypesIn types) :
    (comma ns).TypesIn types := by
  unfold Node.comma
  split
  · exact h _ List.mem_cons_self
  · exact typesIn_mk.mpr ⟨by simp, h⟩

theorem TypesIn.logicalNot {c : Core} (hboolean : types c.boolean) (h : n.TypesIn types) :
    (logicalNot c n).TypesIn types := by
  unfold Node.logicalNot
  split
  · exact h.operand List.mem_cons_self
  · exact typesIn_boolean
  · exact typesIn_unary.mpr ⟨hboolean, h⟩

/-- An operand that may be missing. -/
theorem TypesIn.getD (h : n.TypesIn types) {o? : Option Node}
    (ho : ∀ o, o? = some o → o ∈ n.operands) : (o?.getD .empty).TypesIn types := by
  cases o? with
  | none => exact typesIn_empty
  | some o => exact h.operand (ho o rfl)

end Node

end Script

end ScriptLowering
