import ScriptLowering.Proofs.Lowering.Course
import ScriptLowering.Proofs.Script.Formed

/-!
# What lowering computations ensure

Whatever lowering does, it only adds variables and loop indices to the context (`State.Advances`):
enclosing constructs, choices on casts and depth are as before, also after a failure. `Ensures` is a
statement about a computation from a state: it advances the state, and its answer satisfies a
condition in the state afterwards.
-/

namespace ScriptLowering

/-- No remembered property has both accessors. -/
def MemberMemo.OneSided (memo : MemberMemo) : Prop :=
  ∀ entry ∈ memo.properties, ∀ p, entry.2 = some p → p.IsOneSided

namespace Lowering

open Script

/-- The construct around a statement that jumps see. -/
def JumpTarget.enclosure? : JumpTarget → Option Enclosure
  | loop index => some (.loopBody index)
  | switch => some .switchCase
  | region => none

/-- What is around the current statement. -/
def Context.around (c : Context) : List Enclosure :=
  c.targets.filterMap JumpTarget.enclosure?

variable {enter restore : Context → Context}

namespace State

/-- What has been remembered is right, where properties are derived. -/
def Sane (derived : Prop) (s : State) : Prop :=
  derived → s.session.members.OneSided

/-- A state that came from another one by lowering. -/
structure Advances (s s' : State) : Prop where
  frame : s'.context
    = { s.context with table := s'.context.table, nextLoop := s'.context.nextLoop }
  scope : s.context.scope.Grows s'.context.scope
  loops : s.context.nextLoop ≤ s'.context.nextLoop

theorem Advances.refl (s : State) : s.Advances s :=
  ⟨rfl, Scope.Grows.refl _, Nat.le_refl _⟩

theorem Advances.trans {s₁ s₂ s₃ : State} (h : s₁.Advances s₂) (h' : s₂.Advances s₃) :
    s₁.Advances s₃ where
  frame := by rw [h'.frame, h.frame]
  scope := h.scope.trans h'.scope
  loops := Nat.le_trans h.loops h'.loops

theorem Advances.restored {s s' : State} (h : Advances { s with context := enter s.context } s')
    (hscope : (enter s.context).scope = s.context.scope)
    (hloops : (enter s.context).nextLoop = s.context.nextLoop)
    (hrestore : ∀ table nextLoop, restore { enter s.context with table, nextLoop }
      = { s.context with table, nextLoop }) :
    s.Advances { s' with context := restore s'.context }
      ∧ (restore s'.context).scope = s'.context.scope := by
  have hframe : restore s'.context
      = { s.context with table := s'.context.table, nextLoop := s'.context.nextLoop } := by
    rw [h.frame]
    exact hrestore _ _
  rw [hframe]
  exact ⟨⟨rfl, hscope ▸ h.scope, hloops ▸ h.loops⟩, rfl⟩

theorem Advances.around_eq {s s' : State} (h : s.Advances s') :
    s'.context.around = s.context.around := by
  rw [h.frame]
  rfl

end State

/-- An expression in a state. -/
abbrev ExpressionIn (derived : Prop) (s : State) (n : Node) : Prop :=
  n.IsExpression derived s.context.scope.allVariables s.context.around

/-- An expression in a state that is no argument passed by reference, where properties are
derived. -/
structure ValueIn (derived : Prop) (s : State) (n : Node) : Prop where
  expression : ExpressionIn derived s n
  plain : derived → n.form.isPassing = false

/-- The course of lowering: variables and loop indices are added, and what is remembered stays
right. -/
def advancing (derived : Prop) : Course where
  Fits := State.Sane derived
  Later := State.Advances
  Fails _ _ := True
  refl := .refl
  trans := .trans
  fails_of_later _ h := h

/-- Statements about a computation in a state: it advances the state, and its answer satisfies a
condition. -/
abbrev Ensures {α : Type} (derived : Prop) (x : Lower α) (s : State) (post : State → α → Prop) :
    Prop :=
  (advancing derived).Keeps x s post

section

variable {derived : Prop} {s s' : State} {n : Node}

/-- What is an expression stays one. -/
theorem later (h : s.Advances s') (hn : ExpressionIn derived s n) : ExpressionIn derived s' n := by
  unfold ExpressionIn
  rw [h.around_eq]
  exact hn.mono h.scope.subset

theorem isExpression_around (h : s.Advances s') (hn : ExpressionIn derived s' n) :
    n.IsExpression derived s'.context.scope.allVariables s.context.around :=
  h.around_eq ▸ hn

theorem ValueIn.of_eq (hn : ValueIn derived s n) (hscope : s'.context.scope = s.context.scope)
    (htargets : s'.context.targets = s.context.targets) : ValueIn derived s' n := by
  refine ⟨?_, hn.plain⟩
  unfold ExpressionIn Context.around
  rw [hscope, htargets]
  exact hn.expression

theorem ValueIn.ofPlain {form : Form} {operands : List Node} (hplain : form.isPlain = true)
    (hslots : form.Takes operands.length)
    (hoperands : ∀ o ∈ operands, ExpressionIn derived s o) :
    ValueIn derived s ⟨form, operands⟩ := by
  refine ⟨(Node.isExpression_plain hplain).mpr ⟨hslots, hoperands⟩, fun _ => ?_⟩
  cases form <;> first | rfl | cases hplain

/-- A constant is a value. -/
theorem isValue_literal {l : Literal} : ValueIn derived s (.literal l) :=
  ⟨Node.isExpression_literal, fun _ => rfl⟩

/-- A variable of the method is a value. -/
theorem isValue_ofVariable {v : Variable} (hv : v ∈ s.context.scope.allVariables) :
    ValueIn derived s (.ofVariable v) :=
  ⟨Node.isExpression_ofVariable.mpr hv, fun _ => rfl⟩

theorem ValueIn.later (h : s.Advances s') (hn : ValueIn derived s n) : ValueIn derived s' n :=
  ⟨Lowering.later h hn.expression, hn.plain⟩

end

namespace Ensures

variable {α : Type} {derived : Prop} {s : State} {post : State → α → Prop}

/-- A change of the variables. -/
theorem modifyTable {f : Table → Table}
    (hgrows : s.context.scope.Grows (f s.context.table).toScope) :
    Ensures derived (Lower.modifyTable f) s
      (fun s' _ => s'.context.table = f s.context.table) :=
  fun hs => ⟨⟨hs, rfl, hgrows, Nat.le_refl _⟩, rfl⟩

/-! ### Changed contexts -/

theorem within {x : Lower α} {post' : State → α → Prop}
    (hscope : (enter s.context).scope = s.context.scope)
    (hloops : (enter s.context).nextLoop = s.context.nextLoop)
    (hrestore : ∀ table nextLoop, restore { enter s.context with table, nextLoop }
      = { s.context with table, nextLoop })
    (hpost : ∀ s' a, State.Advances { s with context := enter s.context } s' → post' s' a →
      post { s' with context := restore s'.context } a)
    (hx : Ensures derived x { s with context := enter s.context } post') :
    Ensures derived (Lower.modifyContext enter >>= fun _ => Lower.thenRestore x restore) s post :=
  Course.Keeps.within hx id (fun _ h hs => ⟨hs, (h.restored hscope hloops hrestore).1⟩) hpost
    fun _ h => h

theorem withTarget {x : Lower α} {target : JumpTarget}
    (hx : Ensures derived x { s with context := s.context.pushTarget target } post) :
    Ensures derived (Lower.withTarget target x) s
      (fun s' => post { s' with context := s'.context.pushTarget target }) := by
  refine within rfl rfl (fun _ _ => rfl) (fun s' a h ha => ?_) hx
  have hsame : s'.context.popTarget.pushTarget target = s'.context := by
    rw [h.frame]
    rfl
  simpa only [hsame] using ha

variable {x : Lower Node}

theorem withAutoCast {enabled : Bool} (hx : ∀ s, Ensures derived x s (ValueIn derived)) :
    Ensures derived (Lower.withAutoCast enabled x) s (ValueIn derived) :=
  within rfl rfl (fun _ _ => rfl) (fun _ _ _ hn => hn.of_eq rfl rfl) (hx _)

theorem oneLevelDown (hx : ∀ s, Ensures derived x s (ValueIn derived)) :
    Ensures derived (Lower.oneLevelDown x) s (ValueIn derived) := by
  refine .reading s.context rfl ?_
  unfold Context.enter
  split
  · exact .throw trivial
  · exact .reading _ rfl
      (within rfl rfl (fun _ _ => rfl) (fun _ _ _ hn => hn.of_eq rfl rfl) (hx _))

/-! ### Variables and records -/

theorem declaring {type : Ty} {f : Variable → α} :
    Ensures derived
      (do
        let (v, table) := (← Lower.context).table.newTemporary type
        Lower.modifyTable fun _ => table
        return f v) s
      (fun s' a => ∃ v ∈ s'.context.scope.allVariables, a = f v) :=
  Course.Keeps.declaring (modifyTable (Table.newTemporary_spec _ _).2)

theorem newTemporary {type : Ty} :
    Ensures derived (Lower.newTemporary type) s
      (fun s' n => ∃ v ∈ s'.context.scope.allVariables, n = .ofVariable v) :=
  declaring

theorem resolve {g : Lowerer} {v : Cil.Variable} :
    Ensures derived (g.resolve v) s (fun s' v => v ∈ s'.context.scope.allVariables) :=
  Course.Keeps.resolve (fun h => modifyTable (Table.declare_spec h).2) fun _ => trivial

theorem warn {g : Lowerer} {e : Cil.Expr} {concern : Concern} {message : String} :
    Ensures derived (g.warn e concern message) s (fun _ _ => True) :=
  fun hs => ⟨⟨hs, rfl, Scope.Grows.refl _, Nat.le_refl _⟩, trivial⟩

end Ensures

end Lowering

end ScriptLowering
