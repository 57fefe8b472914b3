import ScriptLowering.Canonical.Declaration
import ScriptLowering.Proofs.Script.Tree
import ScriptLowering.Proofs.Script.Validity

/-!
# Formed trees

A node is formed, in its surroundings, when its slots are filled, it mentions only variables of the
method, its jump aims at what is around it, statements do not stand under expressions, and nothing
is declared yet. Where properties are derived from accessors (`derived`), a formed node is sound as
well. Expressions are trees of formed nodes under an expression form.
-/

namespace ScriptLowering.Script

open Canonical (mentioned?)

/-- A jump aims at what is around it: a jump out of a loop at the nearest loop body, with no case in
between; a jump out of a switch at the nearest case, with no loop body in between; a jump to the
next round at the nearest loop body. -/
def Form.Aims (form : Form) (around : List Enclosure) : Prop :=
  match form with
  | breakOut (some index) => around.head? = some (.loopBody index)
  | breakOut none => around.head? = some .switchCase
  | continueLoop (some index) => around.find? Enclosure.isLoopBody = some (.loopBody index)
  | continueLoop none => False
  | _ => True

/-- The forms of expressions that ask nothing of their operands but their number. -/
def Form.isPlain : Form → Bool
  | var _ | unary _ _ | binary _ _ | takeReference | memberReference _ | passByReference
  | structCopy | cast _ _ | changeType _ | conversion _ _ _ | propertyAccess _ | breakOut _
  | continueLoop _ => false
  | f => !f.isStatement

namespace Node

/-- A formed node in its surroundings. -/
structure Formed (derived : Prop) (vars : List Variable) (around : List Enclosure) (n : Node) :
    Prop where
  slots : n.form.Takes n.operands.length
  sound : derived → n.Sound
  mentions : ∀ v, mentioned? n = some v → v ∈ vars
  aims : n.form.Aims around
  values : n.form.isStatement = false → ∀ o ∈ n.operands, o.form.isStatement = false
  undeclared : n.form ≠ .variableDeclaration

/-- A tree of formed nodes. -/
def IsFormed (derived : Prop) (vars : List Variable) (around : List Enclosure) (n : Node) : Prop :=
  n.HoldsIn (Formed derived vars) around

/-- An expression of formed nodes. -/
def IsExpression (derived : Prop) (vars : List Variable) (around : List Enclosure) (n : Node) :
    Prop :=
  n.form.isStatement = false ∧ n.IsFormed derived vars around

variable {derived : Prop} {vars vars' : List Variable} {around : List Enclosure} {o n r : Node}
  {t : Ty} {form : Form} {rs ns : List Node}

theorem Formed.mono (h : Formed derived vars around n) (hvars : vars ⊆ vars') :
    Formed derived vars' around n :=
  { h with mentions := fun v hv => hvars (h.mentions v hv) }

/-- More variables leave trees formed. -/
theorem IsFormed.mono (h : n.IsFormed derived vars around) (hvars : vars ⊆ vars') :
    n.IsFormed derived vars' around :=
  HoldsIn.mono h fun _ _ hm => hm.mono hvars

/-- More variables leave expressions. -/
theorem IsExpression.mono (h : n.IsExpression derived vars around) (hvars : vars ⊆ vars') :
    n.IsExpression derived vars' around :=
  ⟨h.1, h.2.mono hvars⟩

theorem isExpression_mk {operands : List Node} :
    IsExpression derived vars around ⟨form, operands⟩
      ↔ form.isStatement = false ∧ form.Takes operands.length
        ∧ (derived → Sound ⟨form, operands⟩)
        ∧ (∀ v, mentioned? ⟨form, operands⟩ = some v → v ∈ vars) ∧ form.Aims around
        ∧ ∀ o ∈ operands, o.IsExpression derived vars around := by
  constructor
  · rintro ⟨hform, h⟩
    obtain ⟨hnode, hoperands⟩ := holdsIn_mk.mp h
    rw [holdsFrom_of_isOpen (Form.isOpen_of_expression hform)] at hoperands
    exact ⟨hform, hnode.slots, hnode.sound, hnode.mentions, hnode.aims,
      fun o ho => ⟨hnode.values hform o ho, hoperands o ho⟩⟩
  · rintro ⟨hform, hslots, hsound, hmentions, haims, hoperands⟩
    refine ⟨hform, holdsIn_mk.mpr ⟨⟨hslots, hsound, hmentions, haims, ?_, ?_⟩, ?_⟩⟩
    · exact fun _ o ho => (hoperands o ho).1
    · rintro rfl
      cases hform
    · rw [holdsFrom_of_isOpen (Form.isOpen_of_expression hform)]
      exact fun o ho => (hoperands o ho).2

section

variable (h : n.IsExpression derived vars around)
include h

theorem IsExpression.operand (ho : o ∈ n.operands) : o.IsExpression derived vars around := by
  obtain ⟨form, operands⟩ := n
  exact (isExpression_mk.mp h).2.2.2.2.2 o ho

/-- The slots of an expression are filled. -/
theorem IsExpression.slots : n.form.Takes n.operands.length :=
  (HoldsIn.root h.2).slots

theorem IsExpression.sound (hd : derived) : n.Sound :=
  (HoldsIn.root h.2).sound hd

end

/-- There are no loops in expressions. -/
theorem IsExpression.loopIndices_eq_nil :
    ∀ {n : Node}, n.IsExpression derived vars around → n.loopIndices = [] := by
  intro n
  induction n using Node.induction with
  | step form operands ih =>
    intro h
    rw [loopIndices_mk, Form.loopIndex?_of_expression h.1, Option.toList_none, List.nil_append,
      List.flatMap_eq_nil_iff]
    exact fun o ho => ih o ho (h.operand ho)

/-! ### Constructors of expressions -/

attribute [local simp] Form.isPlain Form.isStatement Form.Takes Form.fixedArity? Form.minArity
  Form.assigns Form.Demands Form.Aims mentioned?

theorem isExpression_plain {operands : List Node} (h : form.isPlain = true) :
    IsExpression derived vars around ⟨form, operands⟩
      ↔ form.Takes operands.length ∧ ∀ o ∈ operands, o.IsExpression derived vars around := by
  rw [isExpression_mk, sound_iff]
  cases form <;> simp at h <;> simp <;> exact fun hslots _ _ => hslots

@[simp] theorem isExpression_empty : IsExpression derived vars around .empty := by
  simp [Node.empty, isExpression_plain]

@[simp] theorem isExpression_literal {l : Literal} :
    IsExpression derived vars around (.literal l) := by
  simp [Node.literal, isExpression_plain]

@[simp] theorem isExpression_ofVariable {v : Variable} :
    IsExpression derived vars around (.ofVariable v) ↔ v ∈ vars := by
  simp [Node.ofVariable, isExpression_mk, sound_iff]

@[simp] theorem isExpression_unary {op : UnaryOp} :
    IsExpression derived vars around (.unary op o t)
      ↔ (derived → (op.isMutating = true → o.isLocation = true) ∧ o.form.isPassing = false)
        ∧ o.IsExpression derived vars around := by
  simp [Node.unary, isExpression_mk, sound_iff]

variable {l : Node} {op : BinaryOp}

@[simp] theorem isExpression_binary :
    IsExpression derived vars around (.binary op l r t)
      ↔ (derived → op.isAssignment = true → l.isLocation = true)
        ∧ l.IsExpression derived vars around ∧ r.IsExpression derived vars around := by
  simp [Node.binary, isExpression_mk, sound_iff]

theorem isExpression_operation (hop : op.isAssignment = false)
    (hl : l.IsExpression derived vars around) (hr : r.IsExpression derived vars around) :
    IsExpression derived vars around (.binary op l r t) :=
  isExpression_binary.mpr ⟨fun _ h => by simp [hop] at h, hl, hr⟩

/-- A variable is assigned an expression. -/
theorem isExpression_assignVariable {v : Variable} {value : Node} (hv : v ∈ vars)
    (hvalue : value.IsExpression derived vars around) :
    IsExpression derived vars around (.binary .assign (.ofVariable v) value t) :=
  isExpression_binary.mpr ⟨fun _ _ => rfl, isExpression_ofVariable.mpr hv, hvalue⟩

@[simp] theorem isExpression_ternary {c : Node} :
    IsExpression derived vars around (.ternary c l r t)
      ↔ c.IsExpression derived vars around ∧ l.IsExpression derived vars around
        ∧ r.IsExpression derived vars around := by
  simp [Node.ternary, isExpression_plain]

@[simp] theorem isExpression_cast {checked : Bool} :
    IsExpression derived vars around (.cast o t checked)
      ↔ (derived → o.form.isPassing = false) ∧ o.IsExpression derived vars around := by
  simp [Node.cast, isExpression_mk, sound_iff]

@[simp] theorem isExpression_changeType :
    IsExpression derived vars around (.changeType o t)
      ↔ (derived → o.form.isPassing = false) ∧ o.IsExpression derived vars around := by
  simp [Node.changeType, isExpression_mk, sound_iff]

@[simp] theorem isExpression_conversion {kind : ConversionKind} {checked : Bool} :
    IsExpression derived vars around (.conversion o kind t checked)
      ↔ (derived → o.form.isPassing = false) ∧ o.IsExpression derived vars around := by
  simp [Node.conversion, isExpression_mk, sound_iff]

@[simp] theorem isExpression_structCopy :
    IsExpression derived vars around (.structCopy o)
      ↔ (derived → o.form.isPassing = false) ∧ o.IsExpression derived vars around := by
  simp [Node.structCopy, isExpression_mk, sound_iff]

@[simp] theorem isExpression_invocation {m : Method} {dispatch : Dispatch} {explicitThis : Bool}
    {receiver : Node} {arguments : List Node} :
    IsExpression derived vars around (.invocation m dispatch explicitThis receiver arguments)
      ↔ receiver.IsExpression derived vars around
        ∧ ∀ a ∈ arguments, a.IsExpression derived vars around := by
  simp [Node.invocation, isExpression_plain]

@[simp] theorem isExpression_intrinsic {name : String} {arguments : List Node} :
    IsExpression derived vars around (.intrinsic name t arguments)
      ↔ ∀ a ∈ arguments, a.IsExpression derived vars around := by
  simp [Node.intrinsic, isExpression_plain]

variable {target : Node}

@[simp] theorem isExpression_fieldAccess {f : Field} :
    IsExpression derived vars around (.fieldAccess f target)
      ↔ target.IsExpression derived vars around := by
  simp [Node.fieldAccess, isExpression_plain]

@[simp] theorem isExpression_elementAccess {array : Node} {indices : List Node} :
    IsExpression derived vars around (.elementAccess t array indices)
      ↔ indices ≠ [] ∧ array.IsExpression derived vars around
        ∧ ∀ i ∈ indices, i.IsExpression derived vars around := by
  simp [Node.elementAccess, isExpression_plain, List.length_pos_iff, Nat.succ_le_iff]

@[simp] theorem isExpression_propertyAccess {p : Property} {indices : List Node} :
    IsExpression derived vars around (.propertyAccess p target indices)
      ↔ (derived → p.IsOneSided) ∧ target.IsExpression derived vars around
        ∧ ∀ i ∈ indices, i.IsExpression derived vars around := by
  simp [Node.propertyAccess, isExpression_mk, sound_iff]

@[simp] theorem isExpression_dereference :
    IsExpression derived vars around (.dereference o)
      ↔ o.IsExpression derived vars around := by
  simp [Node.dereference, isExpression_plain]

@[simp] theorem isExpression_takeReference :
    IsExpression derived vars around ⟨.takeReference, [o]⟩
      ↔ (derived → o.isLocation = true) ∧ o.IsExpression derived vars around := by
  simp [isExpression_mk, sound_iff]

@[simp] theorem isExpression_memberReference {f : Field} :
    IsExpression derived vars around ⟨.memberReference f, [o]⟩
      ↔ (derived → o.form.mayBeMember = false) ∧ o.IsExpression derived vars around := by
  simp [isExpression_mk, sound_iff]

@[simp] theorem isExpression_passByReference :
    IsExpression derived vars around ⟨.passByReference, [o]⟩
      ↔ (derived → o.form.isPassing = false) ∧ o.IsExpression derived vars around := by
  simp [isExpression_mk, sound_iff]

variable {target? : Option Nat}

theorem isExpression_breakOut :
    IsExpression derived vars around ⟨.breakOut target?, []⟩
      ↔ (Form.breakOut target?).Aims around := by
  simp [isExpression_mk, sound_iff, -Form.Aims]

theorem isExpression_continueLoop :
    IsExpression derived vars around ⟨.continueLoop target?, []⟩
      ↔ (Form.continueLoop target?).Aims around := by
  simp [isExpression_mk, sound_iff, -Form.Aims]

theorem isExpression_comma {expressions : List Node}
    (h : ∀ e ∈ expressions, e.IsExpression derived vars around) :
    IsExpression derived vars around (.comma expressions) := by
  unfold Node.comma
  split
  · exact h _ List.mem_cons_self
  · simpa [isExpression_plain] using h

/-! ### Replacement -/

/-- What a replacement keeps of a node: whether it is a statement, the form of a statement, and the
loops in it; and where properties are derived, that it is a location, no member reference and no
passed argument. -/
structure StandsFor (derived : Prop) (r n : Node) : Prop where
  statement : r.form.isStatement = n.form.isStatement
  form : n.form.isStatement = true → r.form = n.form
  loops : r.loopIndices = n.loopIndices
  location : derived → n.isLocation = true → r.isLocation = true
  member : derived → r.form.mayBeMember = true → n.form.mayBeMember = true
  passing : derived → r.form.isPassing = true → n.form.isPassing = true

namespace StandsFor

theorem refl (n : Node) : n.StandsFor derived n :=
  ⟨rfl, fun _ => rfl, rfl, fun _ h => h, fun _ h => h, fun _ h => h⟩

theorem trans {n₁ n₂ n₃ : Node} (h : n₁.StandsFor derived n₂) (h' : n₂.StandsFor derived n₃) :
    n₁.StandsFor derived n₃ where
  statement := h.statement.trans h'.statement
  form hn := (h.form (h'.statement.trans hn)).trans (h'.form hn)
  loops := h.loops.trans h'.loops
  location hd hn := h.location hd (h'.location hd hn)
  member hd hn := h'.member hd (h.member hd hn)
  passing hd hn := h'.passing hd (h.passing hd hn)

theorem congr (form : Form) (h : List.Forall₂ (StandsFor derived) rs ns) :
    StandsFor derived ⟨form, rs⟩ ⟨form, ns⟩ where
  statement := rfl
  form _ := rfl
  loops := by
    rw [loopIndices_mk, loopIndices_mk]
    congr 1
    induction h with
    | nil => rfl
    | cons hfirst _ ih => rw [List.flatMap_cons, List.flatMap_cons, hfirst.loops, ih]
  location _ h := h
  member _ h := h
  passing _ h := h

theorem exists_of_mem (h : List.Forall₂ (StandsFor derived) rs ns) (hr : r ∈ rs) :
    ∃ n ∈ ns, r.StandsFor derived n := by
  induction h with
  | nil => cases hr
  | @cons first n _ ns hfirst _ ih =>
    rcases List.mem_cons.mp hr with rfl | hrest
    · exact ⟨n, List.mem_cons_self, hfirst⟩
    · obtain ⟨m, hm, hstands⟩ := ih hrest
      exact ⟨m, List.mem_cons_of_mem _ hm, hstands⟩

theorem demands (h : r.StandsFor derived n) (hd : derived) (hn : form.Demands n) :
    form.Demands r := by
  unfold Form.Demands at hn ⊢
  split at hn
  case h_1 => exact h.location hd hn
  case h_2 => exact Bool.eq_false_iff.mpr fun hr => Bool.eq_false_iff.mp hn (h.member hd hr)
  case h_9 => exact trivial
  all_goals exact Bool.eq_false_iff.mpr fun hr => Bool.eq_false_iff.mp hn (h.passing hd hr)

end StandsFor

theorem Sound.replace (h : Sound ⟨form, ns⟩) (hrs : List.Forall₂ (StandsFor derived) rs ns)
    (hd : derived) : Sound ⟨form, rs⟩ where
  slots := by
    have hslots := h.slots
    rwa [← hrs.length_eq] at hslots
  target hassigns := by
    have htarget := h.target hassigns
    cases hrs with
    | nil => simp
    | cons hfirst _ => simpa using hfirst.location hd (by simpa using htarget)
  operands r hr := by
    obtain ⟨n, hn, hstands⟩ := StandsFor.exists_of_mem hrs hr
    exact hstands.demands hd (h.operands n hn)
  accessor := h.accessor

theorem IsExpression.standsFor (hr : r.IsExpression derived vars around)
    (hn : n.IsExpression derived vars around) (hform : r.form = n.form) :
    r.StandsFor derived n where
  statement := by rw [hform]
  form _ := hform
  loops := by rw [hr.loopIndices_eq_nil, hn.loopIndices_eq_nil]
  location _ h := by
    unfold isLocation
    rw [hform]
    exact h
  member _ h := hform ▸ h
  passing _ h := hform ▸ h

/-- An expression that is neither a passed argument nor a member reference. -/
structure IsOrdinary (derived : Prop) (vars : List Variable) (around : List Enclosure) (n : Node) :
    Prop where
  expression : n.IsExpression derived vars around
  passing : n.form.isPassing = false
  member : n.form.mayBeMember = false

theorem IsOrdinary.standsFor (hr : r.IsOrdinary derived vars around)
    (hn : n.IsExpression derived vars' around) (hlocation : derived → n.isLocation = false) :
    r.StandsFor derived n where
  statement := hr.expression.1.trans hn.1.symm
  form h := absurd h (Bool.eq_false_iff.mp hn.1)
  loops := by rw [hr.expression.loopIndices_eq_nil, hn.loopIndices_eq_nil]
  location hd h := by simp [hlocation hd] at h
  member _ h := by simp [hr.member] at h
  passing _ h := by simp [hr.passing] at h

theorem IsExpression.replace (h : IsExpression derived vars around ⟨form, ns⟩)
    (hrs : List.Forall₂ (StandsFor derived) rs ns)
    (hexpr : ∀ r ∈ rs, r.IsExpression derived vars around) :
    IsExpression derived vars around ⟨form, rs⟩ := by
  obtain ⟨hform, hslots, hsound, hmentions, haims, -⟩ := isExpression_mk.mp h
  rw [← hrs.length_eq] at hslots
  exact isExpression_mk.mpr
    ⟨hform, hslots, fun hd => (hsound hd).replace hrs hd, hmentions, haims, hexpr⟩

theorem Formed.replace (h : Formed derived vars around ⟨form, ns⟩)
    (hrs : List.Forall₂ (StandsFor derived) rs ns) : Formed derived vars around ⟨form, rs⟩ where
  slots := by
    have hslots := h.slots
    rwa [← hrs.length_eq] at hslots
  sound hd := (h.sound hd).replace hrs hd
  mentions := h.mentions
  aims := h.aims
  values hform r hr := by
    obtain ⟨n, hn, hstands⟩ := StandsFor.exists_of_mem hrs hr
    exact hstands.statement.trans (h.values hform n hn)
  undeclared := h.undeclared

end Node

end ScriptLowering.Script
