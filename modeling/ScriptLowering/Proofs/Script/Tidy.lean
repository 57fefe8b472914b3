import ScriptLowering.Proofs.Script.CanonicalLiteral
import ScriptLowering.Proofs.Script.Tree

/-!
# Tidy trees

A tree is tidy under a `Discipline` if its constants are allowed and its tracked variables are
assigned before they are read (`Tidy`). Which assignments a read can rely on goes by the tree alone:
the elements of a sequence rely on the elements before them, and a handler on the exception that it
catches.
-/

namespace ScriptLowering

namespace Script

/-- What a tree may contain. -/
structure Discipline where
  /-- The constants that may occur. -/
  allows : Literal → Prop
  /-- The variables that have to be assigned before they are read. -/
  tracks : Variable → Prop
  canonical : ∀ {l : Literal}, l.isCanonical = true → allows l
  /-- Constants of an enumeration are decoded by the primitive kind that it is also of. -/
  decoded : ∀ {t : Ty} {k : Primitive} {v : Int64}, t.IsAlso k → allows (.ofEnum t (k.wrap v))

/-! ### Variables in force -/

/-- The variable that a plain assignment assigns. -/
def Node.assigned? : Node → Option Variable
  | ⟨.binary .assign _, target :: _⟩ => target.var?
  | _ => none

/-- The variables that plain assignments assign. -/
def assignedVariables (ns : List Node) : List Variable :=
  ns.filterMap Node.assigned?

namespace Form

/-- Whether lifting goes on below a form. -/
def staysOpen (lifting : Bool) : Form → Bool
  | .ternary _ | .nullableWrap _ => false
  | _ => lifting

/-- The variables that the operands of a form rely on, from those that the form relies on. -/
def within (lifting : Bool) (defined : List Variable) : Form → List Variable
  | .tryCatch (some v) => v :: defined
  | .nullableUnwrap _ => if lifting then [] else defined
  | _ => defined

/-- The variable that an operand may mention besides: the target of an assignment is not read. -/
def grants (form : Form) (slot : Nat) (operand : Node) : List Variable :=
  match form, slot with
  | .binary .assign _, 0 => operand.var?.toList
  | _, _ => []

/-- The variable that the operands after an operand rely on besides. -/
def passesOn (form : Form) (operand : Node) : List Variable :=
  match form with
  | .comma => operand.assigned?.toList
  | _ => []

/-- The forms whose operands rely on what the form relies on. -/
def isOrdinary : Form → Bool
  | .literal _ | .var _ | .ternary _ | .nullableWrap _ | .nullableUnwrap _ | .comma
  | .tryCatch (some _) | .binary .assign _ => false
  | _ => true

end Form

/-- Whether a form is allowed where the given variables are assigned. -/
def Discipline.Permits (d : Discipline) (defined : List Variable) : Form → Prop
  | .literal l => d.allows l
  | .var v => d.tracks v → v ∈ defined
  | _ => True

mutual

/-- A tree that may be lifted or not, where the given variables are assigned. -/
def Tidy (d : Discipline) : Bool → List Variable → Node → Prop
  | lifting, defined, ⟨form, operands⟩ =>
    d.Permits defined form
      ∧ TidyFrom d (form.staysOpen lifting) form 0 (form.within lifting defined) operands

/-- The operands of a form from a slot on, where the given variables are assigned. -/
def TidyFrom (d : Discipline) : Bool → Form → Nat → List Variable → List Node → Prop
  | _, _, _, _, [] => True
  | lifting, form, slot, defined, n :: rest =>
    Tidy d lifting (form.grants slot n ++ defined) n
      ∧ TidyFrom d lifting form (slot + 1) (form.passesOn n ++ defined) rest

end

section

variable {d : Discipline} {lifting lifting' : Bool} {defined defined' : List Variable} {form : Form}
  {slot : Nat} {n : Node} {operands : List Node}

theorem tidy_mk : Tidy d lifting defined ⟨form, operands⟩
    ↔ d.Permits defined form
      ∧ TidyFrom d (form.staysOpen lifting) form 0 (form.within lifting defined) operands := by
  rw [Tidy]

theorem tidy_iff_tidyFrom (h : d.Permits defined form) : Tidy d lifting defined ⟨form, operands⟩
    ↔ TidyFrom d (form.staysOpen lifting) form 0 (form.within lifting defined) operands :=
  tidy_mk.trans (and_iff_right h)

@[simp] theorem tidyFrom_nil : TidyFrom d lifting form slot defined [] := by
  rw [TidyFrom]
  trivial

theorem tidyFrom_cons : TidyFrom d lifting form slot defined (n :: operands)
    ↔ Tidy d lifting (form.grants slot n ++ defined) n
      ∧ TidyFrom d lifting form (slot + 1) (form.passesOn n ++ defined) operands := by
  rw [TidyFrom]

theorem tidyFrom_singleton : TidyFrom d lifting form slot defined [n]
    ↔ Tidy d lifting (form.grants slot n ++ defined) n :=
  tidyFrom_cons.trans (and_iff_left tidyFrom_nil)

/-! ### Weakening -/

theorem append_subset_append {more : List Variable} (hsubset : defined ⊆ defined') :
    more ++ defined ⊆ more ++ defined' :=
  List.append_subset.mpr
    ⟨List.subset_append_left _ _, List.Subset.trans hsubset (List.subset_append_right _ _)⟩

theorem Discipline.Permits.mono (h : d.Permits defined form) (hsubset : defined ⊆ defined') :
    d.Permits defined' form := by
  cases form with
  | var v => exact fun htracked => hsubset (h htracked)
  | _ => exact h

theorem Form.within_subset (hsubset : defined ⊆ defined')
    (hlifting : lifting' = true → lifting = true) :
    form.within lifting defined ⊆ form.within lifting' defined' := by
  unfold within
  split
  · exact List.cons_subset_cons _ hsubset
  · split
    · exact List.nil_subset _
    · next hopen =>
      rw [if_neg fun h => hopen (hlifting h)]
      exact hsubset
  · exact hsubset

theorem Form.staysOpen_imp (hlifting : lifting' = true → lifting = true) :
    form.staysOpen lifting' = true → form.staysOpen lifting = true := by
  unfold staysOpen
  split
  · exact id
  · exact id
  · exact hlifting

@[simp] theorem Form.staysOpen_false : form.staysOpen false = false := by
  unfold staysOpen
  split <;> rfl

mutual

theorem Tidy.weaken : ∀ {n : Node} {lifting lifting' : Bool} {defined defined' : List Variable},
    Tidy d lifting defined n → defined ⊆ defined' → (lifting' = true → lifting = true) →
      Tidy d lifting' defined' n
  | ⟨form, operands⟩, lifting, lifting', defined, defined', h, hsubset, hlifting => by
    obtain ⟨hform, hoperands⟩ := tidy_mk.mp h
    exact tidy_mk.mpr ⟨hform.mono hsubset, TidyFrom.weaken hoperands
      (Form.within_subset hsubset hlifting) (Form.staysOpen_imp hlifting)⟩

theorem TidyFrom.weaken : ∀ {operands : List Node} {lifting lifting' : Bool} {form : Form}
    {slot : Nat} {defined defined' : List Variable},
    TidyFrom d lifting form slot defined operands → defined ⊆ defined' →
      (lifting' = true → lifting = true) → TidyFrom d lifting' form slot defined' operands
  | [], _, _, _, _, _, _, _, _, _ => tidyFrom_nil
  | n :: rest, lifting, lifting', form, slot, defined, defined', h, hsubset, hlifting => by
    obtain ⟨hfirst, hrest⟩ := tidyFrom_cons.mp h
    exact tidyFrom_cons.mpr
      ⟨hfirst.weaken (append_subset_append hsubset) hlifting,
        TidyFrom.weaken hrest (append_subset_append hsubset) hlifting⟩

end

theorem Tidy.anywhere (h : Tidy d lifting [] n) : Tidy d lifting defined n :=
  h.weaken (List.nil_subset _) id

theorem Tidy.settled (h : Tidy d true defined n) : Tidy d false defined n :=
  h.weaken (List.Subset.refl _) fun h => by cases h

/-! ### Ordinary forms -/

theorem tidyFrom_of_separate (hgrants : ∀ slot n, form.grants slot n = [])
    (hpasses : ∀ n, form.passesOn n = []) :
    TidyFrom d lifting form slot defined operands ↔ ∀ o ∈ operands, Tidy d lifting defined o := by
  induction operands generalizing slot with
  | nil => simp
  | cons n rest ih =>
    rw [tidyFrom_cons, hgrants, hpasses, List.nil_append, ih, List.forall_mem_cons]

section

variable (h : form.isOrdinary = true)

include h

theorem Discipline.permits_ordinary : d.Permits defined form := by
  cases form with
  | literal _ | var _ => cases h
  | _ => trivial

theorem Form.staysOpen_ordinary : form.staysOpen lifting = lifting := by
  cases form with
  | ternary _ | nullableWrap _ => cases h
  | _ => rfl

theorem Form.within_ordinary : form.within lifting defined = defined := by
  unfold within
  split
  · cases h
  · cases h
  · rfl

theorem Form.grants_ordinary : form.grants slot n = [] := by
  unfold grants
  split
  · cases h
  · rfl

theorem Form.passesOn_ordinary : form.passesOn n = [] := by
  unfold passesOn
  split
  · cases h
  · rfl

theorem tidyFrom_ordinary : TidyFrom d lifting form slot defined operands
    ↔ ∀ o ∈ operands, Tidy d lifting defined o :=
  tidyFrom_of_separate (fun _ _ => Form.grants_ordinary h) fun _ => Form.passesOn_ordinary h

theorem tidy_ordinary :
    Tidy d lifting defined ⟨form, operands⟩ ↔ ∀ o ∈ operands, Tidy d lifting defined o := by
  rw [tidy_iff_tidyFrom (Discipline.permits_ordinary h), Form.staysOpen_ordinary h,
    Form.within_ordinary h, tidyFrom_ordinary h]

theorem tidy_ordinary_nil : Tidy d lifting defined ⟨form, []⟩ :=
  (tidy_ordinary h).mpr (List.forall_mem_nil _)

theorem tidy_ordinary_singleton :
    Tidy d lifting defined ⟨form, [n]⟩ ↔ Tidy d lifting defined n :=
  (tidy_ordinary h).trans List.forall_mem_singleton

end

theorem Tidy.forall_operands (h : Tidy d lifting defined n) (hform : n.form.isOrdinary = true) :
    ∀ o ∈ n.operands, Tidy d lifting defined o := by
  obtain ⟨form, operands⟩ := n
  exact (tidy_ordinary hform).mp h

@[simp] theorem tidy_empty : Tidy d lifting defined .empty :=
  tidy_ordinary_nil rfl

theorem tidy_getD {o? : Option Node} (h : ∀ o ∈ operands, Tidy d lifting defined o)
    (hmem : ∀ o, o? = some o → o ∈ operands) : Tidy d lifting defined (o?.getD .empty) := by
  cases o? with
  | none => exact tidy_empty
  | some o => exact h o (hmem o rfl)

/-! ### Constants and variables -/

@[simp] theorem tidy_literal {l : Literal} : Tidy d lifting defined (.literal l) ↔ d.allows l := by
  simp [Node.literal, tidy_mk, Discipline.Permits]

/-- Canonical constants are tidy. -/
theorem tidy_canonical {l : Literal} (h : l.isCanonical = true) :
    Tidy d lifting defined (.literal l) :=
  tidy_literal.mpr (d.canonical h)

@[simp] theorem tidy_ofVariable {v : Variable} :
    Tidy d lifting defined (.ofVariable v) ↔ (d.tracks v → v ∈ defined) := by
  simp [Node.ofVariable, tidy_mk, Discipline.Permits]

/-- A variable that is assigned may be read. -/
theorem tidy_ofVariable_self {v : Variable} : Tidy d lifting (v :: defined) (.ofVariable v) :=
  tidy_ofVariable.mpr fun _ => List.mem_cons_self

/-! ### Choices and nullable values -/

variable {t : Ty}

/-- A choice is not lifted any more. -/
theorem tidy_ternary : Tidy d lifting defined ⟨.ternary t, operands⟩
    ↔ ∀ o ∈ operands, Tidy d false defined o :=
  (tidy_iff_tidyFrom (by trivial)).trans (tidyFrom_of_separate (fun _ _ => rfl) fun _ => rfl)

/-- A wrapped value is not lifted any more. -/
theorem tidy_nullableWrap : Tidy d lifting defined ⟨.nullableWrap t, [n]⟩
    ↔ Tidy d false defined n :=
  (tidy_iff_tidyFrom (by trivial)).trans tidyFrom_singleton

theorem tidy_nullableUnwrap : Tidy d lifting defined ⟨.nullableUnwrap t, [n]⟩
    ↔ Tidy d lifting (if lifting then [] else defined) n :=
  (tidy_iff_tidyFrom (by trivial)).trans tidyFrom_singleton

/-! ### Assignments and sequences -/

theorem tidy_assign {target value : Node} :
    Tidy d lifting defined (.binary .assign target value t)
      ↔ Tidy d lifting (target.var?.toList ++ defined) target
        ∧ Tidy d lifting defined value :=
  (tidy_iff_tidyFrom (by trivial)).trans
    (tidyFrom_cons.trans (and_congr Iff.rfl tidyFrom_singleton))

theorem tidy_assign_ofVariable {v : Variable} {value : Node} :
    Tidy d lifting defined (.binary .assign (.ofVariable v) value t)
      ↔ Tidy d lifting defined value := by
  rw [tidy_assign]
  refine and_iff_right (tidy_ofVariable.mpr fun _ => ?_)
  simp [Node.var?, Node.ofVariable]

theorem Tidy.assign {target value : Node} (htarget : Tidy d lifting defined target)
    (hvalue : Tidy d lifting defined value) :
    Tidy d lifting defined (.binary .assign target value t) :=
  tidy_assign.mpr ⟨htarget.weaken (List.subset_append_right _ _) id, hvalue⟩

theorem Tidy.binary {op : BinaryOp} {left right : Node} (hleft : Tidy d lifting defined left)
    (hright : Tidy d lifting defined right) : Tidy d lifting defined (.binary op left right t) := by
  cases op with
  | assign => exact hleft.assign hright
  | _ => exact (tidy_ordinary rfl).mpr (by simp [hleft, hright])

theorem tidy_foldl_binary {op : BinaryOp} :
    ∀ {rest : List Node} {first : Node}, Tidy d lifting defined first →
      (∀ o ∈ rest, Tidy d lifting defined o) →
      Tidy d lifting defined (rest.foldl (fun left right => .binary op left right t) first)
  | [], _, hfirst, _ => hfirst
  | _ :: _, _, hfirst, h => by
    obtain ⟨hsecond, hrest⟩ := List.forall_mem_cons.mp h
    rw [List.foldl_cons]
    exact tidy_foldl_binary (hfirst.binary hsecond) hrest

/-- The places of a sequence do not differ. -/
theorem tidyFrom_comma_slot {slot' : Nat} :
    TidyFrom d lifting .comma slot defined operands
      ↔ TidyFrom d lifting .comma slot' defined operands := by
  induction operands generalizing slot slot' defined with
  | nil => simp
  | cons n rest ih =>
    rw [tidyFrom_cons, tidyFrom_cons]
    exact and_congr Iff.rfl ih

/-- Elements rely on those before them. -/
theorem TidyFrom.append {ns ms : List Node} (hns : TidyFrom d lifting .comma slot defined ns)
    (hms : TidyFrom d lifting .comma slot (assignedVariables ns ++ defined) ms) :
    TidyFrom d lifting .comma slot defined (ns ++ ms) := by
  induction ns generalizing slot defined with
  | nil => exact hms
  | cons n rest ih =>
    obtain ⟨hfirst, hrest⟩ := tidyFrom_cons.mp hns
    -- What the first element assigns is assigned for the others already.
    refine tidyFrom_cons.mpr ⟨hfirst, ih hrest (TidyFrom.weaken (tidyFrom_comma_slot.mp hms) ?_ id)⟩
    intro v hv
    simp only [assignedVariables, List.mem_append, List.mem_filterMap, List.mem_cons,
      Form.passesOn, Option.mem_toList] at hv ⊢
    grind

/-- Elements that do not rely on each other. -/
theorem tidyFrom_comma_of_forall (h : ∀ o ∈ operands, Tidy d lifting defined o) :
    TidyFrom d lifting .comma slot defined operands := by
  induction operands generalizing slot defined with
  | nil => exact tidyFrom_nil
  | cons n rest ih =>
    obtain ⟨hfirst, hrest⟩ := List.forall_mem_cons.mp h
    exact tidyFrom_cons.mpr
      ⟨hfirst, ih fun o ho => (hrest o ho).weaken (List.subset_append_right _ _) id⟩

theorem tidy_comma (h : TidyFrom d lifting .comma 0 defined operands) :
    Tidy d lifting defined (.comma operands) := by
  unfold Node.comma
  split
  · exact (tidyFrom_cons.mp h).1
  · exact (tidy_iff_tidyFrom (by trivial)).mpr h

theorem tidy_comma_concat {prelude : List Node} (hprelude : ∀ o ∈ prelude, Tidy d lifting defined o)
    (hlast : Tidy d lifting (assignedVariables prelude ++ defined) n) :
    Tidy d lifting defined (.comma (prelude ++ [n])) :=
  tidy_comma ((tidyFrom_comma_of_forall hprelude).append (tidyFrom_singleton.mpr hlast))

/-! ### Protected regions -/

theorem tidy_tryCatch {var? : Option Variable} : Tidy d lifting defined ⟨.tryCatch var?, operands⟩
    ↔ ∀ o ∈ operands, Tidy d lifting (var?.toList ++ defined) o := by
  cases var? <;>
    exact (tidy_iff_tidyFrom (by trivial)).trans
      (tidyFrom_of_separate (fun _ _ => rfl) fun _ => rfl)

/-! ### Constants of a tree -/

mutual

theorem Tidy.allows : ∀ {n : Node} {lifting : Bool} {defined : List Variable},
    Tidy d lifting defined n →
      ∀ m ∈ n.selfAndDescendants, ∀ l, m.form = .literal l → d.allows l
  | ⟨form, operands⟩, lifting, defined, h, m, hm, l, hl => by
    obtain ⟨hform, hoperands⟩ := tidy_mk.mp h
    rw [Node.selfAndDescendants_mk] at hm
    rcases List.mem_cons.mp hm with rfl | hm
    · cases hl
      exact hform
    · exact TidyFrom.allows hoperands m hm l hl

theorem TidyFrom.allows : ∀ {operands : List Node} {lifting : Bool} {form : Form} {slot : Nat}
    {defined : List Variable}, TidyFrom d lifting form slot defined operands →
      ∀ m ∈ operands.flatMap Node.selfAndDescendants, ∀ l, m.form = .literal l → d.allows l
  | [], _, _, _, _, _, m, hm, _, _ => by cases hm
  | n :: rest, _, _, _, _, h, m, hm, l, hl => by
    obtain ⟨hfirst, hrest⟩ := tidyFrom_cons.mp h
    rw [List.flatMap_cons] at hm
    rcases List.mem_append.mp hm with hm | hm
    · exact hfirst.allows m hm l hl
    · exact TidyFrom.allows hrest m hm l hl

end

end

end Script

end ScriptLowering
