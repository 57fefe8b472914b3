import ScriptLowering.Proofs.Packing.Storage

/-!
# Trees whose types only change by packing

While a method is lowered, an array variable may become a packed array, and nothing else happens to
the types of its variables (`Scope.Repacks`). The type of a tree follows the types of the variables
in it. It is firm (`Firm`) when from now on it changes in the same way only: the array that it is,
or that it refers to, becomes a packed array. In particular a firm tree that is a reference stays
one, and one that is none never becomes one.
-/

namespace ScriptLowering

/-! ### Types -/

/-- A type, and the type that it is when arrays became packed arrays, under references. -/
inductive Ty.Packs : Ty → Ty → Prop where
  | same (t : Ty) : Packs t t
  | array {t u : Ty} (ht : t.isArray = true) (hu : u.isPackedArray = true) : Packs t u
  | byRef {t u : Ty} (h : Packs t u) : Packs (.byRef t) (.byRef u)

namespace Ty

variable {t : Ty}

theorem isByRef_of_isArray (h : t.isArray = true) : t.isByRef = false := by
  unfold isArray at h
  fun_induction arrayRank? t <;> simp_all [isByRef]

theorem isByRef_of_isPackedArray (h : t.isPackedArray = true) : t.isByRef = false := by
  cases t <;> first | rfl | cases h

theorem Packs.trans {u v : Ty} (h : Packs t u) (h' : Packs u v) : Packs t v := by
  induction h generalizing v with
  | same => exact h'
  | array ht hu =>
    cases h' with
    | same => exact .array ht hu
    | array hu' _ => rw [isArray_of_isPackedArray hu] at hu'; cases hu'
    | byRef _ => cases hu
  | byRef h ih =>
    cases h' with
    | same => exact .byRef h
    | array hu' _ => cases hu'
    | byRef h' => exact .byRef (ih h')

theorem Packs.isByRef_eq {u : Ty} (h : Packs t u) : u.isByRef = t.isByRef := by
  cases h with
  | same => rfl
  | array ht hu => rw [isByRef_of_isArray ht, isByRef_of_isPackedArray hu]
  | byRef _ => rfl

theorem Packs.referent {u : Ty} (h : Packs t u) (ht : t.isByRef = true) :
    Packs (t.elementType?.getD t) (u.elementType?.getD u) := by
  cases h with
  | same => exact .same _
  | array harray _ => rw [isByRef_of_isArray harray] at ht; cases ht
  | byRef h => exact h

end Ty

namespace Lowering

open Script

/-! ### Variables -/

namespace Scope

/-- Variables that are told apart by their serial numbers, whose types are those that they were
declared with, unless they became packed arrays. -/
structure Typed (s : Scope) : Prop where
  wellFormed : s.WellFormed
  serials : ∀ v ∈ s.allVariables, v.serial = v.id
  changes : ∀ entry ∈ s.retyping.changes, entry.1 < s.nextId
  declared : ∀ v ∈ s.allVariables, v.declaredType.Packs (s.typeOf v)

/-- A scope with the same variables or more, of which some may have become packed arrays. -/
structure Repacks (s s' : Scope) : Prop where
  subset : s.allVariables ⊆ s'.allVariables
  types : ∀ v ∈ s.allVariables, (s.typeOf v).Packs (s'.typeOf v)

theorem typed_empty : Scope.empty.Typed where
  wellFormed := wellFormed_empty
  serials := by simp [Scope.empty, allVariables]
  changes := by simp [Scope.empty, Retyping.empty]
  declared := by simp [Scope.empty, allVariables]

theorem Repacks.refl (s : Scope) : s.Repacks s :=
  ⟨List.Subset.refl _, fun _ _ => .same _⟩

theorem Repacks.trans {s₁ s₂ s₃ : Scope} (h : s₁.Repacks s₂) (h' : s₂.Repacks s₃) :
    s₁.Repacks s₃ where
  subset := List.Subset.trans h.subset h'.subset
  types v hv := (h.types v hv).trans (h'.types v (h.subset hv))

variable {s : Scope}

/-- Adding a variable changes no type. -/
theorem repacks_add (s : Scope) (name : String) (kind : VariableKind) (type : Ty) :
    s.Repacks (s.add name kind type).2 where
  subset := (grows_add s name kind type).subset
  types v _ := by
    unfold Scope.typeOf
    rw [retyping_add]
    exact .same _

theorem Typed.add (h : s.Typed) (name : String) (kind : VariableKind) (type : Ty) :
    (s.add name kind type).2.Typed where
  wellFormed := h.wellFormed.add name kind type
  serials := by
    intro v hv
    rcases List.mem_cons.mp ((allVariables_add s name kind type).mem_iff.mp hv) with rfl | hold
    · rfl
    · exact h.serials v hold
  changes := by
    rw [retyping_add]
    intro entry hentry
    have hnumbered := h.changes entry hentry
    exact Nat.lt_succ_of_lt hnumbered
  declared := by
    intro v hv
    unfold Scope.typeOf
    rw [retyping_add]
    rcases List.mem_cons.mp ((allVariables_add s name kind type).mem_iff.mp hv) with rfl | hold
    · -- Changes of type concern earlier numbers, and the variable has the next one.
      have hnew : s.retyping.changes.lookup s.nextId = none := by
        refine List.lookup_eq_none_iff.mpr fun entry hentry => ?_
        have hnumbered := h.changes entry hentry
        exact bne_iff_ne.mpr (Nat.ne_of_gt hnumbered)
      have htype : s.retyping.typeOf (s.add name kind type).1 = type := by
        unfold Retyping.typeOf Scope.add
        rw [hnew]
        rfl
      rw [htype]
      exact .same _
    · exact h.declared v hold

theorem repacks_addTemporary (s : Scope) (number : Nat) (type : Ty) :
    s.Repacks (s.addTemporary number type).2 :=
  ⟨(repacks_add ..).subset, (repacks_add ..).types⟩

theorem Typed.addTemporary (h : s.Typed) (number : Nat) (type : Ty) :
    (s.addTemporary number type).2.Typed := by
  have hadd := h.add (temporaryName number) .temporary type
  have hformed := hadd.wellFormed
  exact ⟨⟨hformed.distinct, hformed.numbered, hformed.parameters, hformed.others⟩, hadd.serials,
    hadd.changes, hadd.declared⟩

variable {v : Variable}

theorem Typed.declare {t t' : Table} (h : t.Typed) {types : Hierarchy} {name : String}
    {kind : VariableKind} {type : Ty} (hok : t.declare types name kind type = .ok (v, t')) :
    t'.Typed ∧ t.Repacks t'.toScope := by
  rcases Table.declare_cases hok with ⟨-, rfl⟩ | ⟨-, rfl, rfl⟩
  · exact ⟨h, .refl _⟩
  · exact ⟨h.add name kind type, repacks_add t.toScope name kind type⟩

theorem Typed.typeOf_retype (h : s.Typed) {w : Variable} (hv : v ∈ s.allVariables)
    (hw : w ∈ s.allVariables) (t : Ty) :
    (w = v ∧ (s.retype v t).typeOf w = t) ∨ (s.retype v t).typeOf w = s.typeOf w := by
  unfold Scope.typeOf Scope.retype Retyping.typeOf Retyping.retype
  rw [List.lookup_cons]
  by_cases hserial : w.serial = v.serial
  · refine .inl ⟨h.wellFormed.eq_of_id_eq hw hv ?_, by simp [hserial]⟩
    rw [← h.serials w hw, ← h.serials v hv, hserial]
  · have hdiffer : (w.serial == v.serial) = false := beq_false_of_ne hserial
    exact .inr (by simp [hdiffer])

theorem Typed.retype (h : s.Typed) (hv : v ∈ s.allVariables) (harray : (s.typeOf v).isArray = true)
    {t : Ty} (hpacked : t.isPackedArray = true) :
    (s.retype v t).Typed ∧ s.Repacks (s.retype v t) := by
  have htypes : ∀ w ∈ s.allVariables, (s.typeOf w).Packs ((s.retype v t).typeOf w) := by
    intro w hw
    rcases h.typeOf_retype hv hw t with ⟨rfl, hsame⟩ | hsame
    · rw [hsame]
      exact .array harray hpacked
    · rw [hsame]
      exact .same _
  refine ⟨⟨?_, h.serials, ?_, ?_⟩, List.Subset.refl _, htypes⟩
  · exact (grows_retype s v t).wellFormed h.wellFormed
  · refine List.forall_mem_cons.mpr ⟨?_, h.changes⟩
    have hserial : v.serial = v.id := h.serials v hv
    change v.serial < s.nextId
    rw [hserial]
    exact h.wellFormed.numbered v hv
  · exact fun w hw => (h.declared w hw).trans (htypes w hw)

theorem Typed.isByRef_typeOf (h : s.Typed) (hv : v ∈ s.allVariables) :
    (s.typeOf v).isByRef = v.isReference := by
  rw [(h.declared v hv).isByRef_eq]
  rfl

end Scope

end Lowering

/-! ### Trees -/

namespace Script

/-- The forms whose type is known from the form alone, whatever types the variables have. -/
def Form.knowsType : Form → Bool
  | var _ | takeReference | dereference | resultDereference | passByReference | structCopy
  | writeThrough | pin | comma => false
  | _ => true

theorem Form.typeRule_of_knowsType {form : Form} (h : form.knowsType = true) (c : Core) :
    ∃ t, ∀ r, form.typeRule c r = .known t := by
  cases form <;> first | exact ⟨_, fun _ => rfl⟩ | cases h

end Script

namespace Lowering

open Script

/-- A tree whose type changes from now on only in that arrays become packed. -/
def Firm (c : Core) (s : Scope) (n : Node) : Prop :=
  ∀ ⦃s₁ s₂ : Scope⦄, s.Repacks s₁ → s₁.Repacks s₂ →
    (n.computedType c s₁.retyping).Packs (n.computedType c s₂.retyping)

namespace Firm

variable {c : Core} {s s' : Scope} {n : Node}

theorem later (h : s.Repacks s') (hn : Firm c s n) : Firm c s' n :=
  fun _ _ h₁ h₂ => hn (h.trans h₁) h₂

theorem isByRef_eq (hn : Firm c s n) (h : s.Repacks s') :
    (n.computedType c s'.retyping).isByRef = (n.computedType c s.retyping).isByRef :=
  (hn (.refl s) h).isByRef_eq

theorem congr {m : Node} (hn : Firm c s n)
    (hsame : ∀ r, m.computedType c r = n.computedType c r) : Firm c s m := by
  intro s₁ s₂ h₁ h₂
  rw [hsame, hsame]
  exact hn h₁ h₂

theorem known {form : Form} (h : form.knowsType = true) {operands : List Node} :
    Firm c s ⟨form, operands⟩ := by
  obtain ⟨t, ht⟩ := Form.typeRule_of_knowsType h c
  intro s₁ s₂ _ _
  rw [computedType_known (ht _), computedType_known (ht _)]
  exact .same t

theorem ofVariable {v : Variable} (hv : v ∈ s.allVariables) : Firm c s (.ofVariable v) := by
  intro s₁ s₂ h₁ h₂
  unfold Node.ofVariable
  rw [computedType_known rfl, computedType_known rfl]
  exact h₂.types v (h₁.subset hv)

theorem takeReference (hn : Firm c s n) : Firm c s ⟨.takeReference, [n]⟩ := by
  intro s₁ s₂ h₁ h₂
  simp only [Node.computedType, Form.typeRule, Node.typeAt]
  exact .byRef (hn h₁ h₂)

theorem referent {form : Form} (hform : form = .dereference ∨ form = .resultDereference)
    (hn : Firm c s n) (href : (n.computedType c s.retyping).isByRef = true) :
    Firm c s ⟨form, [n]⟩ := by
  intro s₁ s₂ h₁ h₂
  have href₁ : (n.computedType c s₁.retyping).isByRef = true := by rw [hn.isByRef_eq h₁, href]
  rcases hform with rfl | rfl <;> simp only [Node.computedType, Form.typeRule, Node.typeAt] <;>
    exact (hn h₁ h₂).referent href₁

theorem structCopy (hn : Firm c s n) : Firm c s (.structCopy n) :=
  hn.congr fun _ => by simp only [Node.structCopy, Node.computedType, Form.typeRule, Node.typeAt]

theorem passByReference (hn : Firm c s n) : Firm c s ⟨.passByReference, [n]⟩ :=
  hn.congr fun _ => by simp only [Node.computedType, Form.typeRule, Node.typeAt]

theorem writeThrough {reference : Node} (hn : Firm c s n) :
    Firm c s ⟨.writeThrough, [reference, n]⟩ :=
  hn.congr fun _ => by simp only [Node.computedType, Form.typeRule, Node.typeAt]

theorem comma {ns : List Node} (hn : Firm c s n) : Firm c s ⟨.comma, ns ++ [n]⟩ :=
  hn.congr fun r => by rw [Node.computedType, Form.typeRule, lastType_concat]

end Firm

end Lowering

end ScriptLowering
