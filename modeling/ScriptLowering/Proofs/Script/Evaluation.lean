import ScriptLowering.Proofs.Script.Tree

/-!
# Evaluation of expressions

A state holds the variables of a method and the trace of what was done so far. Expressions are
evaluated from left to right (`Host.eval`): variables are read and assigned, properties are read and
written by calls that the trace records, and operators compute. What operators compute and getters
answer is up to a `Host`; a getter may answer by the whole trace. So is all that is no expression of
these: it may depend on the trace and on the variables below a bound, and may change them and go on
with the trace. Variables from the bound on are for temporaries, which nothing but an assignment to
them can change (`Host.frames`).
-/

namespace ScriptLowering.Script

/-! ### States -/

/-- What can be noticed of an evaluation. -/
inductive Event (V : Type) where
  /-- A call of a getter, with the receiver and the indices. -/
  | got (property : Property) (operands : List V)
  /-- A call of a setter, with the receiver and the indices. -/
  | put (property : Property) (operands : List V) (value : V)
  /-- Anything else. -/
  | done (form : Form) (operands : List V)

/-- The variables, by number, and what was done so far. -/
structure State (V : Type) where
  locals : Nat → V
  trace : List (Event V)

namespace State

variable {V : Type}

/-- Assigns a variable. -/
def assign (s : State V) (v : Variable) (x : V) : State V :=
  { s with locals := fun i => if i = v.id then x else s.locals i }

/-- Goes on with the trace. -/
def record (s : State V) (events : List (Event V)) : State V :=
  { s with trace := s.trace ++ events }

/-- Other temporaries from a bound on. -/
def overlay (bound : Nat) (s : State V) (temporaries : Nat → V) : State V :=
  { s with locals := fun i => if i < bound then s.locals i else temporaries i }

end State

/-! ### Manners of evaluation -/

/-- How a form is evaluated. -/
inductive Manner where
  /-- It has a value by itself. -/
  | constant
  | read (v : Variable)
  | access (property : Property)
  /-- All operands, then a computation with their values. -/
  | computation
  /-- All operands, with the value of the last. -/
  | sequence
  /-- The first operand, and then the second or the third. -/
  | choice
  /-- The first operand, and the second unless the first is as given. -/
  | shortcut (stop : Bool)
  | operation (op : BinaryOp)
  | assignment
  /-- An assignment of what an operator gives for the old value and another one. -/
  | update (op : BinaryOp)
  | other

/-- How a binary operator is evaluated. -/
def BinaryOp.manner (op : BinaryOp) : Manner :=
  match op with
  | .assign => .assignment
  | .logicalAnd => .shortcut false
  | .logicalOr => .shortcut true
  | op =>
    match op.compoundBase? with
    | some base => .update base
    | none => .operation op

/-- How a form is evaluated. Increments, calls and statements, among others,
are left to the host. -/
def Form.manner : Form → Manner
  | literal _ | typeIdentifier _ | methodIdentifier _ | empty => .constant
  | var v => .read v
  | propertyAccess p => .access p
  | unary op _ => if op.isMutating then .other else .computation
  | binary op _ => op.manner
  | ternary _ => .choice
  | exactMultiply _ | cast _ _ | changeType _ | conversion _ _ _ | nullableWrap _ => .computation
  | comma => .sequence
  | _ => .other

variable {form : Form}

/-- Only a variable is read. -/
theorem Form.eq_var_of_manner {v : Variable} (h : form.manner = .read v) : form = .var v := by
  cases form
  case var w =>
    cases h
    rfl
  case unary op _ => cases op <;> cases h
  case binary op _ => cases op <;> cases h
  all_goals cases h

theorem Form.manner_of_always (h : form.constancy = .always) : form.manner = .constant := by
  cases form
  case unary op _ => cases op <;> cases h
  case binary op _ => cases op <;> cases h
  all_goals first | rfl | cases h

theorem Form.manner_of_whenOperandsAre (h : form.constancy = .whenOperandsAre) :
    form.manner = .computation ∨ form.manner = .choice ∨ (∃ stop, form.manner = .shortcut stop)
      ∨ ∃ op, form.manner = .operation op := by
  cases form
  case unary op _ => cases op <;> first | exact .inl rfl | cases h
  case binary op _ =>
    cases op
    all_goals first
      | cases h; done
      | exact .inr (.inr (.inl ⟨_, rfl⟩))
      | exact .inr (.inr (.inr ⟨_, rfl⟩))
  case ternary _ => exact .inr (.inl rfl)
  all_goals first | exact .inl rfl | cases h

/-! ### Evaluation -/

/-- What evaluation depends on, over variables below a bound. -/
structure Host (V : Type) (bound : Nat) where
  /-- The value of a form, given those of its operands. -/
  compute : Form → List V → V
  operate : BinaryOp → V → V → V
  truth : V → Bool
  /-- What a getter answers after a trace. -/
  answer : List (Event V) → Property → List V → V
  /-- What is no expression: its value, the variables after it, and what it does. -/
  perform : Node → (Fin bound → V) → List (Event V) → V × (Fin bound → V) × List (Event V)

/-- What an assignment assigns, once its operands are evaluated. -/
inductive Place (V : Type) where
  | slot (v : Variable)
  | property (p : Property) (operands : List V)

namespace Place

variable {V : Type}

/-- Writes a place. -/
def write (s : State V) (x : V) : Place V → State V
  | slot v => s.assign v x
  | property p operands => s.record [.put p operands x]

/-- Reads a place. -/
def read {bound : Nat} (host : Host V bound) (s : State V) : Place V → V × State V
  | slot v => (s.locals v.id, s)
  | property p operands => (host.answer s.trace p operands, s.record [.got p operands])

end Place

namespace Host

variable {V : Type} {bound : Nat} (host : Host V bound)

/-- Leaves a node to the host. -/
def leave (n : Node) (s : State V) : V × State V :=
  let outcome := host.perform n (fun i => s.locals i) s.trace
  (outcome.1,
    { locals := fun i => if h : i < bound then outcome.2.1 ⟨i, h⟩ else s.locals i
      trace := s.trace ++ outcome.2.2 })

mutual

/-- The value of a node in a state, and the state after it. -/
def eval : Node → State V → V × State V
  | ⟨form, operands⟩, s =>
    match form.manner, operands with
    | .constant, _ => (host.compute form [], s)
    | .read v, _ => (s.locals v.id, s)
    | .access p, operands =>
      let values := evalAll operands s
      (Place.property p values.1).read host values.2
    | .sequence, operands =>
      let values := evalAll operands s
      (values.1.getLast?.getD (host.compute form []), values.2)
    | .choice, [condition, whenTrue, whenFalse] =>
      let test := eval condition s
      if host.truth test.1 then eval whenTrue test.2 else eval whenFalse test.2
    | .shortcut stop, [left, right] =>
      let first := eval left s
      if host.truth first.1 = stop then first else eval right first.2
    | .operation op, [left, right] =>
      let first := eval left s
      let second := eval right first.2
      (host.operate op first.1 second.1, second.2)
    | .assignment, [left, right] =>
      match place? left s with
      | some place =>
        let value := eval right place.2
        (value.1, place.1.write value.2 value.1)
      | none => host.leave ⟨form, [left, right]⟩ s
    | .update op, [left, right] =>
      match place? left s with
      | some place =>
        let old := place.1.read host place.2
        let value := eval right old.2
        let new := host.operate op old.1 value.1
        (new, place.1.write value.2 new)
      | none => host.leave ⟨form, [left, right]⟩ s
    | .assignment, operands | .update _, operands | .other, operands =>
      host.leave ⟨form, operands⟩ s
    | _, operands =>
      let values := evalAll operands s
      (host.compute form values.1, values.2)

/-- The place that a node names, and the state after its operands are evaluated. -/
def place? : Node → State V → Option (Place V × State V)
  | ⟨form, operands⟩, s =>
    match form.manner with
    | .read v => some (.slot v, s)
    | .access p =>
      let values := evalAll operands s
      some (.property p values.1, values.2)
    | _ => none

/-- The values of nodes, from left to right. -/
def evalAll : List Node → State V → List V × State V
  | [], s => ([], s)
  | n :: ns, s =>
    let first := eval n s
    let rest := evalAll ns first.2
    (first.1 :: rest.1, rest.2)

end

end Host

/-! ### Temporaries -/

namespace State

variable {V : Type} {bound : Nat} {s : State V} {temporaries : Nat → V} {v : Variable} {x : V}

theorem locals_overlay_of_lt {i : Nat} (hi : i < bound) :
    (s.overlay bound temporaries).locals i = s.locals i := by
  simp [overlay, hi]

theorem locals_overlay_of_le {i : Nat} (hi : bound ≤ i) :
    (s.overlay bound temporaries).locals i = temporaries i := by
  simp [overlay, Nat.not_lt.mpr hi]

@[simp] theorem trace_overlay : (s.overlay bound temporaries).trace = s.trace := rfl

@[simp] theorem record_overlay (events : List (Event V)) :
    (s.overlay bound temporaries).record events = (s.record events).overlay bound temporaries := rfl

theorem assign_overlay_of_lt (hv : v.id < bound) :
    (s.overlay bound temporaries).assign v x = (s.assign v x).overlay bound temporaries := by
  simp only [overlay, assign, State.mk.injEq, and_true]
  funext i
  by_cases hi : i = v.id
  · simp [hi, hv]
  · simp [hi]

theorem assign_overlay_of_le (hv : bound ≤ v.id) :
    (s.overlay bound temporaries).assign v x
      = s.overlay bound fun i => if i = v.id then x else temporaries i := by
  simp only [overlay, assign, State.mk.injEq, and_true]
  funext i
  by_cases hi : i = v.id
  · simp [hi, Nat.not_lt.mpr hv]
  · simp [hi]

end State

namespace Place

variable {V : Type} {bound : Nat} {host : Host V bound} {s : State V} {temporaries : Nat → V}

/-- A place that is no temporary. -/
def Below (bound : Nat) : Place V → Prop
  | slot v => v.id < bound
  | property _ _ => True

theorem write_overlay {place : Place V} (hplace : place.Below bound) (x : V) :
    place.write (s.overlay bound temporaries) x = (place.write s x).overlay bound temporaries := by
  cases place with
  | slot v => exact State.assign_overlay_of_lt hplace
  | property p operands => rfl

theorem read_overlay {place : Place V} (hplace : place.Below bound) :
    place.read host (s.overlay bound temporaries)
      = ((place.read host s).1, (place.read host s).2.overlay bound temporaries) := by
  cases place with
  | slot v => rw [read, read, State.locals_overlay_of_lt hplace]
  | property p operands => rfl

theorem read_extends (host : Host V bound) (s : State V) (place : Place V) :
    s.trace <+: (place.read host s).2.trace := by
  cases place with
  | slot v => exact List.prefix_rfl
  | property p operands => exact List.prefix_append _ _

theorem write_extends (s : State V) (x : V) (place : Place V) :
    s.trace <+: (place.write s x).trace := by
  cases place with
  | slot v => exact List.prefix_rfl
  | property p operands => exact List.prefix_append _ _

end Place

theorem Node.allConstant_iff {ns : List Node} :
    Node.allConstant ns = true ↔ ∀ n ∈ ns, n.isConstant = true := by
  induction ns with
  | nil => simp [Node.allConstant]
  | cons n ns ih => simp [Node.allConstant, ih]

/-- All variables in a tree are below a bound. -/
def Node.VariablesBelow (bound : Nat) (n : Node) : Prop :=
  ∀ m ∈ n.selfAndDescendants, ∀ v, m.form = .var v → v.id < bound

theorem Node.variablesBelow_mk {bound : Nat} {operands : List Node} :
    VariablesBelow bound ⟨form, operands⟩
      ↔ (∀ v, form = .var v → v.id < bound) ∧ ∀ o ∈ operands, o.VariablesBelow bound := by
  simp only [VariablesBelow, selfAndDescendants_mk, List.forall_mem_cons, List.forall_mem_flatMap]

namespace Host

variable {V : Type} {bound : Nat} (host : Host V bound)

theorem leave_overlay (n : Node) (s : State V) (temporaries : Nat → V) :
    host.leave n (s.overlay bound temporaries)
      = ((host.leave n s).1, (host.leave n s).2.overlay bound temporaries) := by
  -- The host is shown the variables below the bound only.
  have hlow : (fun i : Fin bound => (s.overlay bound temporaries).locals i)
      = fun i : Fin bound => s.locals i := by
    funext i
    exact State.locals_overlay_of_lt i.isLt
  rw [leave, leave, hlow, State.trace_overlay]
  generalize host.perform n (fun i => s.locals i) s.trace = outcome
  simp only [State.overlay, Prod.mk.injEq, State.mk.injEq, true_and, and_true]
  funext i
  by_cases hi : i < bound
  · simp [hi]
  · simp [hi]

/-- Evaluation does not see the temporaries, and leaves them alone. -/
structure Frames (n : Node) : Prop where
  eval : ∀ s temporaries, host.eval n (s.overlay bound temporaries)
    = ((host.eval n s).1, (host.eval n s).2.overlay bound temporaries)
  place : ∀ s temporaries, host.place? n (s.overlay bound temporaries)
    = (host.place? n s).map fun found => (found.1, found.2.overlay bound temporaries)
  below : ∀ s found, host.place? n s = some found → found.1.Below bound

variable {ns : List Node}

theorem evalAll_overlay (h : ∀ n ∈ ns, host.Frames n) (s : State V) (temporaries : Nat → V) :
    host.evalAll ns (s.overlay bound temporaries)
      = ((host.evalAll ns s).1, (host.evalAll ns s).2.overlay bound temporaries) := by
  induction ns generalizing s with
  | nil => simp only [evalAll]
  | cons n ns ih =>
    obtain ⟨hn, hns⟩ := List.forall_mem_cons.mp h
    simp only [evalAll, hn.eval, ih hns]

theorem place?_overlay {operands : List Node} (hform : ∀ v, form = .var v → v.id < bound)
    (hoperands : ∀ o ∈ operands, host.Frames o) :
    (∀ s temporaries, host.place? ⟨form, operands⟩ (s.overlay bound temporaries)
        = (host.place? ⟨form, operands⟩ s).map fun found =>
            (found.1, found.2.overlay bound temporaries))
      ∧ ∀ s found, host.place? ⟨form, operands⟩ s = some found → found.1.Below bound := by
  constructor
  · intro s temporaries
    unfold place?
    split
    · rfl
    · dsimp only
      rw [host.evalAll_overlay hoperands]
      rfl
    · rfl
  · intro s found hfound
    unfold place? at hfound
    split at hfound
    · next v hmanner =>
      cases hfound
      exact hform v (Form.eq_var_of_manner hmanner)
    · cases hfound
      trivial
    · cases hfound

/-- Trees without temporaries. -/
theorem frames (n : Node) : n.VariablesBelow bound → host.Frames n := by
  induction n using Node.induction with
  | step form operands ih =>
    intro hn
    obtain ⟨hform, hbelow⟩ := Node.variablesBelow_mk.mp hn
    have hframes : ∀ o ∈ operands, host.Frames o := fun o ho => ih o ho (hbelow o ho)
    have hall := host.evalAll_overlay hframes
    obtain ⟨hplace, hplaceBelow⟩ := host.place?_overlay hform hframes
    refine ⟨fun s temporaries => ?_, hplace, hplaceBelow⟩
    -- One case for each manner: the temporaries are carried through the operands in turn.
    unfold eval
    split
    · rfl
    · next v hmanner =>
      rw [State.locals_overlay_of_lt (hform v (Form.eq_var_of_manner hmanner))]
    · dsimp only
      rw [hall]
      rfl
    · dsimp only
      rw [hall]
    · -- A choice.
      next condition whenTrue whenFalse _ =>
      dsimp only
      rw [(hframes condition (by simp)).eval]
      split
      · exact (hframes whenTrue (by simp)).eval _ _
      · exact (hframes whenFalse (by simp)).eval _ _
    · next stop left right _ =>
      dsimp only
      rw [(hframes left (by simp)).eval]
      split
      · rfl
      · exact (hframes right (by simp)).eval _ _
    · next op left right _ =>
      dsimp only
      rw [(hframes left (by simp)).eval, (hframes right (by simp)).eval]
    · -- An assignment, to a place or to something else.
      next left right _ =>
      rw [(hframes left (by simp)).place]
      cases hfound : host.place? left s with
      | none => exact host.leave_overlay _ s temporaries
      | some found =>
        dsimp only [Option.map_some]
        rw [(hframes right (by simp)).eval,
          Place.write_overlay ((hframes left (by simp)).below s found hfound)]
    · next op left right _ =>
      rw [(hframes left (by simp)).place]
      cases hfound : host.place? left s with
      | none => exact host.leave_overlay _ s temporaries
      | some found =>
        have hfoundBelow := (hframes left (by simp)).below s found hfound
        dsimp only [Option.map_some]
        rw [Place.read_overlay hfoundBelow, (hframes right (by simp)).eval,
          Place.write_overlay hfoundBelow]
    · exact host.leave_overlay _ s temporaries
    · exact host.leave_overlay _ s temporaries
    · exact host.leave_overlay _ s temporaries
    · dsimp only
      rw [hall]

/-! ### Traces -/

/-- Evaluation only goes on with the trace. -/
structure Extends (n : Node) : Prop where
  eval : ∀ s, s.trace <+: (host.eval n s).2.trace
  place : ∀ s found, host.place? n s = some found → s.trace <+: found.2.trace

theorem leave_extends (n : Node) (s : State V) : s.trace <+: (host.leave n s).2.trace :=
  List.prefix_append _ _

theorem evalAll_extends (h : ∀ n ∈ ns, host.Extends n) (s : State V) :
    s.trace <+: (host.evalAll ns s).2.trace := by
  induction ns generalizing s with
  | nil =>
    unfold evalAll
    exact List.prefix_rfl
  | cons n ns ih =>
    obtain ⟨hn, hns⟩ := List.forall_mem_cons.mp h
    rw [evalAll]
    exact (hn.eval s).trans (ih hns _)

theorem extends_all (n : Node) : host.Extends n := by
  induction n using Node.induction with
  | step form operands ih =>
    have hall := host.evalAll_extends ih
    refine ⟨fun s => ?_, fun s found hfound => ?_⟩
    · unfold eval
      split
      · exact List.prefix_rfl
      · exact List.prefix_rfl
      · exact (hall s).trans (List.prefix_append _ _)
      · exact hall s
      · next condition whenTrue whenFalse _ =>
        have htest := (ih condition (by simp)).eval s
        dsimp only
        split
        · exact htest.trans ((ih whenTrue (by simp)).eval _)
        · exact htest.trans ((ih whenFalse (by simp)).eval _)
      · next stop left right _ =>
        have hfirst := (ih left (by simp)).eval s
        dsimp only
        split
        · exact hfirst
        · exact hfirst.trans ((ih right (by simp)).eval _)
      · next op left right _ =>
        exact ((ih left (by simp)).eval s).trans ((ih right (by simp)).eval _)
      · next left right _ =>
        cases hfound : host.place? left s with
        | none => exact host.leave_extends _ s
        | some found =>
          have hplace := (ih left (by simp)).place s found hfound
          have hvalue := (ih right (by simp)).eval found.2
          exact (hplace.trans hvalue).trans (Place.write_extends _ _ _)
      · next op left right _ =>
        cases hfound : host.place? left s with
        | none => exact host.leave_extends _ s
        | some found =>
          have hplace := (ih left (by simp)).place s found hfound
          have hread := Place.read_extends host found.2 found.1
          have hvalue := (ih right (by simp)).eval (found.1.read host found.2).2
          exact ((hplace.trans hread).trans hvalue).trans (Place.write_extends _ _ _)
      · exact host.leave_extends _ s
      · exact host.leave_extends _ s
      · exact host.leave_extends _ s
      · exact hall s
    · unfold place? at hfound
      split at hfound
      · cases hfound
        exact List.prefix_rfl
      · cases hfound
        exact hall s
      · cases hfound

/-! ### Equations -/

section

variable {s : State V} {v : Variable} {p : Property} {operands : List Node}

theorem eval_ofVariable : host.eval (.ofVariable v) s = (s.locals v.id, s) := by
  unfold Node.ofVariable eval
  rfl

theorem eval_propertyAccess : host.eval ⟨.propertyAccess p, operands⟩ s
    = (Place.property p (host.evalAll operands s).1).read host (host.evalAll operands s).2 := by
  unfold eval
  rfl

theorem eval_comma : host.eval ⟨.comma, operands⟩ s
    = ((host.evalAll operands s).1.getLast?.getD (host.compute .comma []),
      (host.evalAll operands s).2) := by
  unfold eval
  rfl

variable {form : Form} {left right : Node}

theorem eval_choice {condition whenTrue whenFalse : Node} (hmanner : form.manner = .choice) :
    host.eval ⟨form, [condition, whenTrue, whenFalse]⟩ s
      = if host.truth (host.eval condition s).1 then host.eval whenTrue (host.eval condition s).2
        else host.eval whenFalse (host.eval condition s).2 := by
  conv => lhs; unfold eval
  rw [hmanner]

theorem eval_shortcut {stop : Bool} (hmanner : form.manner = .shortcut stop) :
    host.eval ⟨form, [left, right]⟩ s
      = if host.truth (host.eval left s).1 = stop then host.eval left s
        else host.eval right (host.eval left s).2 := by
  conv => lhs; unfold eval
  rw [hmanner]

theorem eval_operation {op : BinaryOp} (hmanner : form.manner = .operation op) :
    host.eval ⟨form, [left, right]⟩ s
      = (host.operate op (host.eval left s).1 (host.eval right (host.eval left s).2).1,
        (host.eval right (host.eval left s).2).2) := by
  conv => lhs; unfold eval
  rw [hmanner]

variable {found : Place V × State V}

theorem eval_assignment (hmanner : form.manner = .assignment)
    (hfound : host.place? left s = some found) :
    host.eval ⟨form, [left, right]⟩ s
      = ((host.eval right found.2).1,
        found.1.write (host.eval right found.2).2 (host.eval right found.2).1) := by
  conv => lhs; unfold eval
  rw [hmanner]
  dsimp only
  rw [hfound]

theorem eval_update {op : BinaryOp} (hmanner : form.manner = .update op)
    (hfound : host.place? left s = some found) :
    host.eval ⟨form, [left, right]⟩ s
      = let old := found.1.read host found.2
        let value := host.eval right old.2
        (host.operate op old.1 value.1,
          found.1.write value.2 (host.operate op old.1 value.1)) := by
  conv => lhs; unfold eval
  rw [hmanner]
  dsimp only
  rw [hfound]

theorem place?_ofVariable : host.place? (.ofVariable v) s = some (.slot v, s) := by
  unfold Node.ofVariable place?
  rfl

theorem place?_propertyAccess : host.place? ⟨.propertyAccess p, operands⟩ s
    = some (.property p (host.evalAll operands s).1, (host.evalAll operands s).2) := by
  unfold place?
  rfl

theorem evalAll_append (first second : List Node) (s : State V) :
    host.evalAll (first ++ second) s
      = ((host.evalAll first s).1 ++ (host.evalAll second (host.evalAll first s).2).1,
        (host.evalAll second (host.evalAll first s).2).2) := by
  induction first generalizing s with
  | nil => simp only [List.nil_append, evalAll]
  | cons n ns ih => simp only [List.cons_append, evalAll, ih]

theorem length_evalAll (ns : List Node) (s : State V) :
    (host.evalAll ns s).1.length = ns.length := by
  induction ns generalizing s with
  | nil => simp only [evalAll, List.length_nil]
  | cons n ns ih => simp only [evalAll, List.length_cons, ih]

end

/-! ### Constants -/

theorem evalAll_constant (h : ∀ n ∈ ns, ∃ x, ∀ s, host.eval n s = (x, s)) :
    ∃ xs, ∀ s, host.evalAll ns s = (xs, s) := by
  induction ns with
  | nil => exact ⟨[], fun s => by rw [evalAll]⟩
  | cons n ns ih =>
    obtain ⟨⟨x, hx⟩, hns⟩ := List.forall_mem_cons.mp h
    obtain ⟨xs, hxs⟩ := ih hns
    exact ⟨x :: xs, fun s => by rw [evalAll, hx, hxs]⟩

theorem eval_constant (n : Node) : n.isConstant = true → ∃ x, ∀ s, host.eval n s = (x, s) := by
  induction n using Node.induction with
  | step form operands ih =>
    intro hconstant
    rw [Node.isConstant] at hconstant
    cases hconstancy : form.constancy with
    | never => rw [hconstancy] at hconstant; cases hconstant
    | always =>
      have hmanner := Form.manner_of_always hconstancy
      exact ⟨host.compute form [], fun s => by simp only [eval, hmanner]⟩
    | whenOperandsAre =>
      rw [hconstancy] at hconstant
      have hoperands : ∀ o ∈ operands, ∃ x, ∀ s, host.eval o s = (x, s) :=
        fun o ho => ih o ho (Node.allConstant_iff.mp hconstant o ho)
      obtain ⟨xs, hxs⟩ := host.evalAll_constant hoperands
      -- With more or fewer operands than its manner asks for, a form computes with them.
      have hcomputed (heval : ∀ s, host.eval ⟨form, operands⟩ s
          = (host.compute form (host.evalAll operands s).1, (host.evalAll operands s).2)) :
          ∃ x, ∀ s, host.eval ⟨form, operands⟩ s = (x, s) :=
        ⟨host.compute form xs, fun s => by rw [heval, hxs]⟩
      -- Whatever the form does with its operands, they change no state.
      rcases Form.manner_of_whenOperandsAre hconstancy with hmanner | hmanner | ⟨stop, hmanner⟩
          | ⟨op, hmanner⟩
      · exact hcomputed fun s => by unfold eval; rw [hmanner]
      · rcases operands with _ | ⟨a, _ | ⟨b, _ | ⟨c, _ | ⟨d, rest⟩⟩⟩⟩
        case cons.cons.cons.nil =>
          obtain ⟨x, hx⟩ := hoperands a (by simp)
          obtain ⟨y, hy⟩ := hoperands b (by simp)
          obtain ⟨z, hz⟩ := hoperands c (by simp)
          refine ⟨if host.truth x then y else z, fun s => ?_⟩
          rw [host.eval_choice hmanner, hx, hy, hz]
          split <;> rfl
        all_goals exact hcomputed fun s => by unfold eval; rw [hmanner]
      · rcases operands with _ | ⟨a, _ | ⟨b, _ | ⟨c, rest⟩⟩⟩
        case cons.cons.nil =>
          obtain ⟨x, hx⟩ := hoperands a (by simp)
          obtain ⟨y, hy⟩ := hoperands b (by simp)
          refine ⟨if host.truth x = stop then x else y, fun s => ?_⟩
          rw [host.eval_shortcut hmanner, hx, hy]
          split <;> rfl
        all_goals exact hcomputed fun s => by unfold eval; rw [hmanner]
      · rcases operands with _ | ⟨a, _ | ⟨b, _ | ⟨c, rest⟩⟩⟩
        case cons.cons.nil =>
          obtain ⟨x, hx⟩ := hoperands a (by simp)
          obtain ⟨y, hy⟩ := hoperands b (by simp)
          exact ⟨host.operate op x y, fun s => by rw [host.eval_operation hmanner, hx, hy]⟩
        all_goals exact hcomputed fun s => by unfold eval; rw [hmanner]

end Host

end ScriptLowering.Script
