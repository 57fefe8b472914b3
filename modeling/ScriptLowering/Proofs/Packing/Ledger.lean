import ScriptLowering.Proofs.Packing.Close

/-!
# Types of trees in two runs

A method is lowered twice: on the left without packed arrays, on the right with them. A `Ledger` holds
the types that the variables of the two runs were declared with. Only array variables are ever given
another type, a packed array (`Settled`), so that variables declared with close types keep close types.
-/

namespace ScriptLowering.Lowering

open Script

/-! ### Declared types -/

/-- The types that the variables of two runs were declared with, by number. -/
structure Ledger where
  left : List Ty
  right : List Ty

/-- A ledger in which more variables are declared. -/
structure Ledger.Le (w w' : Ledger) : Prop where
  left : w.left <+: w'.left
  right : w.right <+: w'.right

theorem Ledger.Le.refl (w : Ledger) : w.Le w :=
  ⟨List.prefix_rfl, List.prefix_rfl⟩

theorem Ledger.Le.trans {w₁ w₂ w₃ : Ledger} (h : w₁.Le w₂) (h' : w₂.Le w₃) : w₁.Le w₃ :=
  ⟨h.left.trans h'.left, h.right.trans h'.right⟩

section

variable {env : Env} {L : Lexicon env} {w w' : Ledger} {l r : Node}

/-- The type that a variable was declared with stands in the ledger. -/
def Known (declared : List Ty) (v : Variable) : Prop :=
  declared[v.serial]? = some v.declaredType

variable {declared : List Ty} {changes : Retyping} {v : Variable} {declared' : List Ty}

theorem Known.later (hle : declared <+: declared') (h : Known declared v) : Known declared' v := by
  obtain ⟨rest, rfl⟩ := hle
  have hlt : v.serial < declared.length := (List.getElem?_eq_some_iff.mp h).1
  unfold Known
  rw [List.getElem?_append_left hlt]
  exact h

/-- Only arrays were given other types, namely packed arrays. -/
def Settled (L : Lexicon env) (declared : List Ty) (changes : Retyping) : Prop :=
  ∀ entry ∈ changes.changes, L.types entry.2 ∧ env.types.Dull entry.2
    ∧ entry.2.isPackedArray = true ∧ ∃ t, declared[entry.1]? = some t ∧ t.isArray = true

theorem settled_empty : Settled L declared .empty := by
  intro entry hentry
  cases hentry

theorem Settled.later (hle : declared <+: declared') (h : Settled L declared changes) :
    Settled L declared' changes := by
  intro entry hentry
  obtain ⟨hmem, hdull, hpacked, t, ht, harray⟩ := h entry hentry
  obtain ⟨rest, rfl⟩ := hle
  have hlt : entry.1 < declared.length := (List.getElem?_eq_some_iff.mp ht).1
  refine ⟨hmem, hdull, hpacked, t, ?_, harray⟩
  rw [List.getElem?_append_left hlt, ht]

section

variable (h : Settled L declared changes)
include h

theorem Settled.typeOf (hv : Known declared v) :
    changes.typeOf v = v.declaredType
      ∨ v.declaredType.isArray = true ∧ L.types (changes.typeOf v)
        ∧ env.types.Dull (changes.typeOf v) ∧ (changes.typeOf v).isPackedArray = true := by
  unfold Retyping.typeOf
  cases hlookup : changes.changes.lookup v.serial with
  | none => exact .inl rfl
  | some t =>
    obtain ⟨before, after, hsplit, -⟩ := List.lookup_eq_some_iff.mp hlookup
    obtain ⟨hmem, hdull, hpacked, u, hu, harray⟩ := h (v.serial, t) (by rw [hsplit]; simp)
    have heq : v.declaredType = u := by
      unfold Known at hv
      rw [hv] at hu
      exact Option.some.inj hu
    rw [← heq] at harray
    exact .inr ⟨harray, hmem, hdull, hpacked⟩

theorem Settled.close {changes' : Retyping} (h' : Settled L declared' changes') {v' : Variable}
    (hv : Known declared v) (hv' : Known declared' v')
    (hclose : Close L v.declaredType v'.declaredType) :
    Close L (changes.typeOf v) (changes'.typeOf v') := by
  rcases h.typeOf hv with hsame | ⟨harray, hmem, hdull, -⟩ <;>
    rcases h'.typeOf hv' with hsame' | ⟨harray', hmem', hdull', -⟩
  · rw [hsame, hsame']
    exact hclose
  · rw [hsame]
    have hdeclared := hclose.dull_of_dull (Hierarchy.dull_of_isArray harray')
    exact .dull hclose.left hmem' hdeclared hdull'
  · rw [hsame']
    have hdeclared := hclose.symm.dull_of_dull (Hierarchy.dull_of_isArray harray)
    exact .dull hmem hclose.right hdull hdeclared
  · exact .dull hmem hmem' hdull hdull'

theorem Settled.typeOf_eq (hv : Known declared v) (harray : v.declaredType.isArray = false) :
    changes.typeOf v = v.declaredType := by
  rcases h.typeOf hv with hsame | ⟨hisArray, -⟩
  · exact hsame
  · rw [harray] at hisArray
    cases hisArray

theorem Settled.isByRef_typeOf (hv : Known declared v) :
    (changes.typeOf v).isByRef = v.declaredType.isByRef := by
  rcases h.typeOf hv with hsame | ⟨harray, -, hdull, -⟩
  · rw [hsame]
  · have hdeclared : env.types.Dull v.declaredType := Hierarchy.dull_of_isArray harray
    rw [hdull.isByRef, hdeclared.isByRef]

theorem Settled.isArray_declaredType (hv : Known declared v)
    (harray : (changes.typeOf v).isArray = true) : v.declaredType.isArray = true := by
  rcases h.typeOf hv with hsame | ⟨hdeclared, -⟩
  · rw [← hsame]
    exact harray
  · exact hdeclared

end

variable {t : Ty}

theorem Settled.retype (h : Settled L declared changes) (hv : Known declared v)
    (harray : v.declaredType.isArray = true) (hmem : L.types t) (hdull : env.types.Dull t)
    (hpacked : t.isPackedArray = true) : Settled L declared (changes.retype v t) := by
  intro entry hentry
  rcases List.mem_cons.mp hentry with rfl | hold
  · exact ⟨hmem, hdull, hpacked, v.declaredType, hv, harray⟩
  · exact h entry hold

/-! ### Types of trees -/

theorem computedType_known {c : Core} {form : Form} {operands : List Node}
    (h : form.typeRule c changes = .known t) :
    (⟨form, operands⟩ : Node).computedType c changes = t := by
  rw [Node.computedType, h]

/-- Trees whose types are close, now and later. -/
def TypedAlike (L : Lexicon env) (w : Ledger) (l r : Node) : Prop :=
  ∀ ⦃w' : Ledger⦄ ⦃changes changes' : Retyping⦄, w.Le w' → Settled L w'.left changes →
    Settled L w'.right changes' →
    Close L (l.computedType env.core changes) (r.computedType env.core changes')

namespace TypedAlike

theorem later (hle : w.Le w') (h : TypedAlike L w l r) : TypedAlike L w' l r :=
  fun _ _ _ hle' hl hr => h (hle.trans hle') hl hr

/-- The types of trees now. -/
theorem now (h : TypedAlike L w l r) {changes' : Retyping} (hl : Settled L w.left changes)
    (hr : Settled L w.right changes') :
    Close L (l.computedType env.core changes) (r.computedType env.core changes') :=
  h (.refl w) hl hr

theorem fixed {t' : Ty} (hl : ∀ changes, l.computedType env.core changes = t)
    (hr : ∀ changes, r.computedType env.core changes = t') (hclose : Close L t t') :
    TypedAlike L w l r := by
  intro w' changes changes' _ _ _
  rw [hl changes, hr changes']
  exact hclose

/-- Forms that know their types. -/
theorem known {form form' : Form} {operands operands' : List Node} {t' : Ty} (hclose : Close L t t')
    (hrule : (form.typeRule env.core ·) = fun _ => .known t)
    (hrule' : (form'.typeRule env.core ·) = fun _ => .known t') :
    TypedAlike L w ⟨form, operands⟩ ⟨form', operands'⟩ :=
  fixed (fun changes => computedType_known (congrFun hrule changes))
    (fun changes => computedType_known (congrFun hrule' changes)) hclose

theorem ofVariable {v' : Variable} (hv : Known w.left v) (hv' : Known w.right v')
    (hclose : Close L v.declaredType v'.declaredType) :
    TypedAlike L w (.ofVariable v) (.ofVariable v') := by
  intro w' changes changes' hle hl hr
  unfold Node.ofVariable
  rw [computedType_known rfl, computedType_known rfl]
  exact hl.close hr (hv.later hle.left) (hv'.later hle.right) hclose

variable (h : TypedAlike L w l r)
include h

theorem takeReference : TypedAlike L w ⟨.takeReference, [l]⟩ ⟨.takeReference, [r]⟩ := by
  intro w' changes changes' hle hl hr
  simp only [Node.computedType, Form.typeRule, Node.typeAt]
  exact .byRef (h hle hl hr)

theorem isByRef_later {changes₁ : Retyping} (hl : Settled L w.left changes) (hle : w.Le w')
    (hl₁ : Settled L w'.left changes₁) :
    (l.computedType env.core changes₁).isByRef = (l.computedType env.core changes).isByRef := by
  -- Both are compared with the right tree under the declared types.
  have hold := (h hle (hl.later hle.left) settled_empty).isByRef_eq
  have hnew := (h hle hl₁ settled_empty).isByRef_eq
  rw [hold, hnew]

/-- What references lead to is typed alike. -/
theorem referent {l' r' : Node} (hl : Settled L w.left changes)
    (hreference : (l.computedType env.core changes).isByRef = true)
    (hl' : ∀ changes, l'.computedType env.core changes
      = (l.computedType env.core changes).elementType?.getD (l.computedType env.core changes))
    (hr' : ∀ changes, r'.computedType env.core changes
      = (r.computedType env.core changes).elementType?.getD (r.computedType env.core changes)) :
    TypedAlike L w l' r' := by
  intro w' changes₁ changes₁' hle hl₁ hr₁
  have hstays := h.isByRef_later hl hle hl₁
  rw [hreference] at hstays
  rw [hl', hr']
  exact (h hle hl₁ hr₁).referent (.inl hstays)

end TypedAlike

/-- A tree whose types are of the lexicon, now and later. -/
def TypedIn (L : Lexicon env) (declared : List Ty) (n : Node) : Prop :=
  ∀ ⦃declared' : List Ty⦄ ⦃changes : Retyping⦄, declared <+: declared' →
    Settled L declared' changes → L.types (n.computedType env.core changes)

theorem TypedAlike.left (h : TypedAlike L w l r) : TypedIn L w.left l := by
  intro declared' changes hle hl
  have hle' : w.Le ⟨declared', w.right⟩ := ⟨hle, List.prefix_rfl⟩
  exact (h hle' hl settled_empty).left

theorem TypedAlike.right (h : TypedAlike L w l r) : TypedIn L w.right r := by
  intro declared' changes hle hr
  have hle' : w.Le ⟨w.left, declared'⟩ := ⟨List.prefix_rfl, hle⟩
  exact (h hle' settled_empty hr).right

end

end ScriptLowering.Lowering
