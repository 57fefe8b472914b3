import ScriptLowering.Canonical.PropertyUpdate
import ScriptLowering.Proofs.Script.Evaluation

/-!
# What the sequence for an update of a property does

An update of a property evaluates the receiver and the indices once. In the sequence that replaces
it the operands are evaluated once too, and put into temporaries, but for those that can be
repeated. Constants can, and keep their value. Variables are read again for the call of the getter
and for that of the setter, and by then a later operand or the value may have assigned them.
`sequence_meaning_iff` says that this is all that can differ: the sequence means what the update
means exactly if the variables among the operands hold, at both calls, what they held at their turn.
-/

namespace ScriptLowering.Canonical

open Script Lowering

variable {V : Type} {bound : Nat} {host : Host V bound} {c : Core}

/-! ### Operands that are read again -/

/-- What an operand gives when it stands in place in a state: a variable what it holds, and another
one the value that it had. -/
def again (s : State V) (operand : Node) (x : V) : V :=
  match operand.var? with
  | some v => s.locals v.id
  | none => x

/-- What operands give in a state, once they had values. -/
def reread (s : State V) (operands : List Node) (values : List V) : List V :=
  List.zipWith (again s) operands values

/-- The variables among some operands hold, in a state, the values that the operands had. -/
def StillHold (s : State V) (operands : List Node) (values : List V) : Prop :=
  List.Forall₂ (fun operand x => ∀ v, operand.var? = some v → s.locals v.id = x) operands values

theorem reread_cons (s : State V) (operand : Node) (operands : List Node) (x : V)
    (values : List V) :
    reread s (operand :: operands) (x :: values) = again s operand x :: reread s operands values :=
  rfl

variable {s : State V} {operand : Node} {values : List V} {operands : List Node}

theorem stillHold_cons {x : V} :
    StillHold s (operand :: operands) (x :: values)
      ↔ (∀ v, operand.var? = some v → s.locals v.id = x) ∧ StillHold s operands values :=
  List.forall₂_cons

theorem reread_eq_self_iff (hlength : values.length = operands.length) :
    reread s operands values = values ↔ StillHold s operands values := by
  induction operands generalizing values with
  | nil =>
    cases values with
    | nil => exact ⟨fun _ => .nil, fun _ => rfl⟩
    | cons _ _ => cases hlength
  | cons operand operands ih =>
    cases values with
    | nil => cases hlength
    | cons x values =>
      have hrest := ih (Nat.succ.inj hlength)
      have hfirst : again s operand x = x ↔ ∀ v, operand.var? = some v → s.locals v.id = x := by
        unfold again
        cases operand.var? with
        | none => simp
        | some v => simp
      rw [stillHold_cons, ← hrest, ← hfirst, reread_cons, List.cons.injEq]

/-- What is no variable holds anyway. -/
theorem stillHold_of_var? (hlength : values.length = operands.length)
    (hnone : ∀ o ∈ operands, o.var? = none) : StillHold s operands values := by
  induction operands generalizing values with
  | nil =>
    cases values with
    | nil => exact .nil
    | cons _ _ => cases hlength
  | cons operand operands ih =>
    obtain ⟨hfirst, hrest⟩ := List.forall_mem_cons.mp hnone
    cases values with
    | nil => cases hlength
    | cons x values =>
      refine .cons (fun v hv => ?_) (ih (Nat.succ.inj hlength) hrest)
      rw [hfirst] at hv
      cases hv

variable {v : Variable}

theorem eval_of_canRepeat {isReceiver : Bool} (hrepeat : canRepeat isReceiver operand = true)
    (s t : State V) : host.eval operand t = (again t operand (host.eval operand s).1, t) := by
  obtain ⟨form, operands⟩ := operand
  unfold canRepeat at hrepeat
  split at hrepeat
  case h_1 hform | h_2 hform | h_3 hform =>
    dsimp only at hform
    subst hform
    unfold Host.eval again
    rfl
  case h_4 hvar _ =>
    obtain ⟨x, hx⟩ := host.eval_constant _ (Bool.and_eq_true_iff.mp hrepeat).2
    have hnone : Node.var? ⟨form, operands⟩ = none := by
      unfold Node.var?
      split
      · next v hform => exact absurd hform (hvar v)
      · rfl
    rw [hx, hx, again, hnone]

/-- What is no variable is not read again. -/
theorem again_of_var? (hvar : operand.var? = none) (s : State V) (x : V) :
    again s operand x = x := by
  rw [again, hvar]

theorem var?_of_not_canRepeat {isReceiver : Bool} (hrepeat : canRepeat isReceiver operand = false) :
    operand.var? = none := by
  unfold Node.var?
  split
  · next v hform => simp [canRepeat, hform] at hrepeat
  · rfl

/-! ### Spilled operands -/

/-- What is known of operands that are spilled with temporaries from the number `first` on and below
`last`. Evaluating the assignments leads to the state after the operands, but for the temporaries.
From then on the operands that are left give what the operands gave, or what their variables
hold. -/
structure Spills (host : Host V bound) (operands : List Node) (first last : Nat)
    (spilled : Spilled) (s : State V) (temporaries after : Nat → V) : Prop where
  le : first ≤ last
  state : (host.evalAll spilled.assignments (s.overlay bound temporaries)).2
    = (host.evalAll operands s).2.overlay bound after
  older : ∀ i < first, after i = temporaries i
  operands : ∀ (t : State V) (later : Nat → V), (∀ i < last, later i = after i) →
    host.evalAll spilled.operands (t.overlay bound later)
      = (reread t operands (host.evalAll operands s).1, t.overlay bound later)

section

variable {operand : Node} {rest : List Node} {first last : Nat}
  {spilled : Spilled} {s : State V} {temporaries after : Nat → V}

theorem spills_nil : Spills host [] first first ⟨[], []⟩ s temporaries temporaries where
  le := Nat.le_refl _
  state := by simp only [Host.evalAll]
  older _ _ := rfl
  operands t later _ := by simp only [Host.evalAll, reread, List.zipWith_nil_left]

/-- An operand that stays in place. -/
theorem Spills.keep
    (hrepeat : ∀ t, host.eval operand t = (again t operand (host.eval operand s).1, t))
    (hbelow : operand.VariablesBelow bound)
    (hrest : Spills host rest first last spilled s temporaries after) :
    Spills host (operand :: rest) first last
      ⟨spilled.assignments, operand :: spilled.operands⟩ s temporaries after := by
  have hstill : (host.eval operand s).2 = s := by
    rw [hrepeat s]
  refine ⟨hrest.le, ?_, hrest.older, fun t later hlater => ?_⟩
  · rw [Host.evalAll, hstill]
    exact hrest.state
  · -- A variable of the method is not a temporary.
    have hagain : again (t.overlay bound later) operand (host.eval operand s).1
        = again t operand (host.eval operand s).1 := by
      unfold again
      cases hvar : operand.var? with
      | none => rfl
      | some v =>
        have hv : v.id < bound := hbelow operand List.mem_cons_self v (Node.form_of_var? hvar)
        exact State.locals_overlay_of_lt hv
    rw [Host.evalAll, hrepeat, hagain]
    dsimp only
    rw [hrest.operands t later hlater, Host.evalAll, hstill]
    rfl

theorem Spills.move {type : Ty} (hvar : operand.var? = none) (hbelow : operand.VariablesBelow bound)
    (hv : v.id = first) (hbound : bound ≤ first)
    (hrest : Spills host rest (first + 1) last spilled (host.eval operand s).2
      (fun i => if i = v.id then (host.eval operand s).1 else temporaries i) after) :
    Spills host (operand :: rest) first last
      ⟨.binary .assign (.ofVariable v) operand type :: spilled.assignments,
        .ofVariable v :: spilled.operands⟩ s temporaries after := by
  have hle := hrest.le
  refine ⟨by omega, ?_, fun i hi => ?_, fun t later hlater => ?_⟩
  · have hassign : (host.eval (.binary .assign (.ofVariable v) operand type)
          (s.overlay bound temporaries)).2
        = (host.eval operand s).2.overlay bound
            fun i => if i = v.id then (host.eval operand s).1 else temporaries i := by
      rw [Node.binary, host.eval_assignment rfl host.place?_ofVariable,
        (host.frames operand hbelow).eval, Place.write, State.assign_overlay_of_le (by omega)]
    rw [Host.evalAll, hassign, Host.evalAll]
    exact hrest.state
  · have hne : i ≠ v.id := by omega
    rw [hrest.older i (by omega), if_neg hne]
  · -- The temporary is older than those of the other operands, which leave it alone.
    have htemporary : later v.id = (host.eval operand s).1 := by
      rw [hlater v.id (by omega), hrest.older v.id (by omega), if_pos rfl]
    rw [Host.evalAll, host.eval_ofVariable, State.locals_overlay_of_le (by omega), htemporary]
    dsimp only
    rw [hrest.operands t later hlater, Host.evalAll, reread_cons, again_of_var? hvar]

end

/-- Operands are spilled from left to right. -/
theorem spills (operands : List Node) : ∀ (isReceiver : Bool) (scope : Scope) (s : State V)
    (temporaries : Nat → V), bound ≤ scope.nextId → (∀ o ∈ operands, o.VariablesBelow bound) →
    ∃ after, Spills host operands scope.nextId (spill c isReceiver operands scope).2.nextId
      (spill c isReceiver operands scope).1 s temporaries after := by
  induction operands with
  | nil => exact fun _ _ _ temporaries _ _ => ⟨temporaries, spills_nil⟩
  | cons operand rest ih =>
    intro isReceiver scope s temporaries hbound hbelow
    obtain ⟨hoperand, hrest⟩ := List.forall_mem_cons.mp hbelow
    unfold spill
    split
    · next hrepeat =>
      obtain ⟨after, hafter⟩ := ih false scope s temporaries hbound hrest
      exact ⟨after, hafter.keep (eval_of_canRepeat hrepeat s) hoperand⟩
    · next hrepeat =>
      -- The temporary takes the next number, and the others come after it.
      have hnext : bound ≤ (scope.newTemporary (operand.computedType c scope.retyping)).2.nextId :=
        Nat.le_succ_of_le hbound
      obtain ⟨after, hafter⟩ := ih false _ (host.eval operand s).2 _ hnext hrest
      have hvar := var?_of_not_canRepeat (Bool.eq_false_iff.mpr hrepeat)
      exact ⟨after, hafter.move hvar hoperand rfl hbound⟩

/-! ### The sequence -/

/-- An update of a property in the state after its operands, with what the getter is called on, and
with what the setter is called on in the state after the value. -/
def updateOn (host : Host V bound) (property : Property) (op : BinaryOp) (value : Node)
    (s : State V) (read : List V) (write : State V → List V) : V × State V :=
  let old := (Place.property property read).read host s
  let right := host.eval value old.2
  let new := host.operate op old.1 right.1
  (new, right.2.record [.put property (write right.2) new])

section

variable {op base : BinaryOp} {type : Ty} {property : Property} {operands : List Node}
  {value : Node} {scope : Scope}

theorem eval_update_property (hop : op.compoundBase? = some base) (s : State V) :
    host.eval ⟨.binary op type, [⟨.propertyAccess property, operands⟩, value]⟩ s
      = updateOn host property base value (host.evalAll operands s).2 (host.evalAll operands s).1
          fun _ => (host.evalAll operands s).1 := by
  have hmanner : (Form.binary op type).manner = .update base := by
    cases op <;> cases hop <;> rfl
  rw [host.eval_update hmanner host.place?_propertyAccess]
  rfl

theorem manner_of_compoundBase? (hop : op.compoundBase? = some base) :
    (Form.binary base type).manner = .operation base := by
  cases op <;> cases hop <;> rfl

/-- The sequence of assignments to temporaries, of the computation of the new value with the getter,
and of the call of the setter. -/
def sequenceOf (property : Property) (op : BinaryOp) (value : Node) (written : Ty)
    (spilled : Spilled) (v : Variable) : Node :=
  let access : Node := ⟨.propertyAccess property, spilled.operands⟩
  ⟨.comma, spilled.assignments
    ++ [.binary .assign (.ofVariable v) (.binary op access value property.type) property.type,
      .binary .assign access (.ofVariable v) written, .ofVariable v]⟩

theorem updateSequence_eq {receiver : Node} {indices : List Node} {spilled : Spilled}
    {scope' : Scope} (hset : property.setter?.isSome = true)
    (hspill : spill c true (receiver :: indices) scope = (spilled, scope')) :
    ∃ written, updateSequence c property base (receiver :: indices) value scope
      = (.ok (sequenceOf property base value written spilled (scope'.newTemporary property.type).1),
        (scope'.newTemporary property.type).2) := by
  -- The receiver stays in place or becomes a temporary, so there is an operand to access.
  have hcons : ∃ first rest, spilled.operands = first :: rest := by
    unfold spill at hspill
    split at hspill <;> cases hspill <;> exact ⟨_, _, rfl⟩
  obtain ⟨first, rest, hcons⟩ := hcons
  have haccess : accessOf property spilled.operands
      = ⟨.propertyAccess property, spilled.operands⟩ := by
    rw [hcons]
    rfl
  -- Only a sequence of one node is that node.
  have hcomma : ∀ (before : List Node) (n m k : Node),
      Node.comma (before ++ [n, m, k]) = ⟨.comma, before ++ [n, m, k]⟩ := by
    intro before n m k
    rcases before with _ | ⟨_, _ | _⟩ <;> rfl
  unfold updateSequence
  rw [hspill]
  dsimp only
  rw [haccess, Node.assign, Node.compoundAssign, if_neg (by decide),
    if_neg (by simp [Node.isLocation, Form.isLocation, hset])]
  dsimp only
  rw [hcomma]
  exact ⟨_, rfl⟩

theorem eval_sequenceOf {first last : Nat} {spilled : Spilled} {after : Nat → V}
    (property : Property) (written : Ty) (hop : op.compoundBase? = some base)
    (hbound : bound ≤ first) (hspills : Spills host operands first last spilled s s.locals after)
    (hv : v.id = last) (hvalue : value.VariablesBelow bound) :
    ∃ later, host.eval (sequenceOf property base value written spilled v) s
      = let outcome := updateOn host property base value (host.evalAll operands s).2
          (reread (host.evalAll operands s).2 operands (host.evalAll operands s).1)
          fun t => reread t operands (host.evalAll operands s).1
        (outcome.1, outcome.2.overlay bound later) := by
  have hle := hspills.le
  have hself : s.overlay bound s.locals = s := by simp [State.overlay]
  have hstate := hspills.state
  rw [hself] at hstate
  have haccess := hspills.operands
  generalize (host.evalAll operands s).1 = values at haccess ⊢
  generalize (host.evalAll operands s).2 = t at hstate ⊢
  -- The new value, which goes into the last temporary.
  let right := host.eval value
    ((Place.property property (reread t operands values)).read host t).2
  let new := (updateOn host property base value t (reread t operands values)
    fun t => reread t operands values).1
  let later : Nat → V := fun i => if i = v.id then new else after i
  have hnew : ∀ u : State V, (u.overlay bound later).locals v.id = new := fun u => by
    rw [State.locals_overlay_of_le (by omega)]
    exact if_pos rfl
  have hcompute : host.eval (.binary .assign (.ofVariable v)
        (.binary base ⟨.propertyAccess property, spilled.operands⟩ value property.type)
        property.type) (t.overlay bound after)
      = (new, right.2.overlay bound later) := by
    rw [Node.binary, host.eval_assignment rfl host.place?_ofVariable, Node.binary,
      host.eval_operation (manner_of_compoundBase? hop), host.eval_propertyAccess,
      haccess t after fun _ _ => rfl]
    dsimp only [Place.read, State.trace_overlay, State.record_overlay]
    rw [(host.frames value hvalue).eval]
    dsimp only [Place.write]
    rw [State.assign_overlay_of_le (by omega)]
    rfl
  -- The setter is called in whatever state the value has led to.
  have hwrite : ∀ u : State V, host.eval (.binary .assign
        ⟨.propertyAccess property, spilled.operands⟩ (.ofVariable v) written)
        (u.overlay bound later)
      = (new, (u.record [.put property (reread u operands values) new]).overlay bound later) := by
    intro u
    have holder : ∀ i < last, later i = after i := fun i hi => if_neg (by omega)
    rw [Node.binary, host.eval_assignment rfl host.place?_propertyAccess, haccess u later holder,
      host.eval_ofVariable, hnew]
    rfl
  have hresult : ∀ u : State V, host.eval (.ofVariable v) (u.overlay bound later)
      = (new, u.overlay bound later) := fun u => by
    rw [host.eval_ofVariable, hnew]
  refine ⟨later, ?_⟩
  rw [sequenceOf, host.eval_comma, host.evalAll_append, hstate]
  simp only [Host.evalAll, hcompute, hwrite, hresult]
  rw [List.getLast?_append]
  rfl

end

/-! ### Meaning -/

/-- Two outcomes with the same value, the same trace, and the same variables below a bound. -/
structure SameMeaning (bound : Nat) (a b : V × State V) : Prop where
  value : a.1 = b.1
  trace : a.2.trace = b.2.trace
  locals : ∀ i < bound, a.2.locals i = b.2.locals i

/-- Temporaries do not count. -/
theorem sameMeaning_overlay_iff {x : V} {temporaries : Nat → V} {b : V × State V} :
    SameMeaning bound (x, s.overlay bound temporaries) b ↔ SameMeaning bound (x, s) b := by
  have hlocals : (∀ i < bound, (s.overlay bound temporaries).locals i = b.2.locals i)
      ↔ ∀ i < bound, s.locals i = b.2.locals i :=
    forall₂_congr fun i hi => by rw [State.locals_overlay_of_lt hi]
  exact ⟨fun h => ⟨h.value, h.trace, hlocals.mp h.locals⟩,
    fun h => ⟨h.value, h.trace, hlocals.mpr h.locals⟩⟩

/-- The state at the call of the setter. -/
def beforePut (host : Host V bound) (property : Property) (value : Node) (s : State V)
    (values : List V) : State V :=
  (host.eval value ((Place.property property values).read host s).2).2

theorem sameMeaning_updateOn_iff {property : Property} {op : BinaryOp} {value : Node}
    {read : List V} {write : State V → List V} :
    SameMeaning bound (updateOn host property op value s read write)
        (updateOn host property op value s values fun _ => values)
      ↔ read = values ∧ write (beforePut host property value s values) = values := by
  constructor
  · intro hsame
    -- Both traces go on from the call of the getter.
    have hprefix : ∀ called : List V, ∃ more,
        (beforePut host property value s called).trace
          = s.trace ++ (.got property called :: more) := by
      intro called
      obtain ⟨more, hmore⟩ := (host.extends_all value).eval
        ((Place.property property called).read host s).2
      refine ⟨more, ?_⟩
      rw [beforePut, ← hmore, Place.read, State.record]
      simp
    obtain ⟨more, hmore⟩ := hprefix read
    obtain ⟨more', hmore'⟩ := hprefix values
    have htrace := hsame.trace
    dsimp only [updateOn, State.record] at htrace
    rw [← beforePut, ← beforePut] at htrace
    have hread : read = values := by
      rw [hmore, hmore', List.append_assoc, List.append_assoc] at htrace
      have hcalls := List.append_cancel_left htrace
      rw [List.cons_append, List.cons_append] at hcalls
      exact (Event.got.inj (List.cons.inj hcalls).1).2
    subst hread
    -- Called on the same, the getter answers the same, so the traces agree up to the setter.
    have hput := (List.cons.inj (List.append_cancel_left htrace)).1
    exact ⟨rfl, (Event.put.inj hput).2.1⟩
  · rintro ⟨rfl, hwrite⟩
    have hsame : updateOn host property op value s read write
        = updateOn host property op value s read fun _ => read := by
      rw [updateOn, updateOn, ← beforePut, hwrite]
    rw [hsame]
    exact ⟨rfl, rfl, fun _ _ => rfl⟩

/-- An update of a settable property becomes a sequence. In a state, the sequence means what the
update means exactly if the variables among its operands hold, at the call of the getter and at that
of the setter, what they held at their turn; in all states, if there are none among them. -/
theorem sequence_meaning_iff (c : Core) {op base : BinaryOp} (type : Ty) {property : Property}
    {receiver value : Node} {indices : List Node} {scope : Scope}
    (hop : op.compoundBase? = some base) (hset : property.setter?.isSome = true)
    (hoperands : ∀ o ∈ receiver :: indices, o.VariablesBelow scope.nextId)
    (hvalue : value.VariablesBelow scope.nextId) :
    let update : Node := ⟨.binary op type, [⟨.propertyAccess property, receiver :: indices⟩, value]⟩
    ∃ sequence scope', (propertyUpdate c).reduct? update scope = (.ok (some sequence), scope')
      ∧ ∀ {V : Type} (host : Host V scope.nextId) (s : State V),
        let values := host.evalAll (receiver :: indices) s
        (SameMeaning scope.nextId (host.eval sequence s) (host.eval update s)
          ↔ StillHold values.2 (receiver :: indices) values.1
            ∧ StillHold (beforePut host property value values.2 values.1) (receiver :: indices)
                values.1)
        ∧ ((∀ o ∈ receiver :: indices, o.var? = none) →
          SameMeaning scope.nextId (host.eval sequence s) (host.eval update s)) := by
  intro update
  rcases hspill : spill c true (receiver :: indices) scope with ⟨spilled, scope'⟩
  obtain ⟨written, hsequence⟩ :
      ∃ written, updateSequence c property base (receiver :: indices) value scope = _ :=
    updateSequence_eq hset hspill
  have hstep : (propertyUpdate c).reduct? update scope
      = (.ok (some (sequenceOf property base value written spilled
          (scope'.newTemporary property.type).1)), (scope'.newTemporary property.type).2) := by
    unfold propertyUpdate
    dsimp only [update]
    rw [hop]
    dsimp only
    rw [hsequence]
  refine ⟨_, _, hstep, fun {V} host s => ?_⟩
  intro values
  have hlength : values.1.length = (receiver :: indices).length := host.length_evalAll _ s
  have hiff : SameMeaning scope.nextId (host.eval (sequenceOf property base value written spilled
        (scope'.newTemporary property.type).1) s) (host.eval update s)
      ↔ StillHold values.2 (receiver :: indices) values.1
        ∧ StillHold (beforePut host property value values.2 values.1) (receiver :: indices)
            values.1 := by
    -- At first the temporaries hold anything, such as what the state has in their place.
    obtain ⟨after, hspills⟩ : ∃ after, Spills host _ _ _ _ s s.locals after :=
      spills (c := c) _ true scope s s.locals (Nat.le_refl _) hoperands
    rw [hspill] at hspills
    have hv : (scope'.newTemporary property.type).1.id = scope'.nextId := rfl
    obtain ⟨later, heval⟩ :=
      eval_sequenceOf property written hop (Nat.le_refl _) hspills hv hvalue
    rw [heval, eval_update_property hop, sameMeaning_overlay_iff, sameMeaning_updateOn_iff,
      reread_eq_self_iff hlength, reread_eq_self_iff hlength]
  refine ⟨hiff, fun hnone => hiff.mpr ?_⟩
  exact ⟨stillHold_of_var? hlength hnone, stillHold_of_var? hlength hnone⟩

/-! ### A variable that is assigned in between -/

/-- A class. -/
def widget : Ty :=
  .named (.plain 40 "App" "Widget" (.ofFile "App.exe") .classType)

/-- A settable property of the class. -/
def count : Property where
  name := "Count"
  declaringType := widget
  type := Core.standard.int32
  getter? := some ⟨"get_Count", widget, Core.standard.int32, [], [], .empty⟩
  setter? := some ⟨"set_Count", widget, Core.standard.void, [⟨"value", Core.standard.int32⟩], [],
    .empty⟩
  isStatic := false

/-- A variable of the class. -/
def widgetVariable (id : Nat) (name : String) : Variable :=
  ⟨id, name, .localVariable, widget, id⟩

/-- Two variables of the class. -/
def widgets : Scope :=
  { Scope.empty with
    locals := [widgetVariable 0 "a", widgetVariable 1 "b"]
    nextId := 2 }

/-- The constant one, after the assignment of one variable to another. -/
def oneAfter (target source : Variable) : Node :=
  ⟨.comma, [.binary .assign (.ofVariable target) (.ofVariable source) widget,
    .integer .standard .i4 1]⟩

/-- The count of the first variable, updated by a value. -/
def updateCount (value : Node) : Node :=
  ⟨.binary .addAssign Core.standard.int32,
    [⟨.propertyAccess count, [.ofVariable (widgetVariable 0 "a")]⟩, value]⟩

/-- A host on numbers: constants are one, a getter answers how much was done before, and what is no
expression does nothing. -/
def counting : Host Nat 2 where
  compute _ _ := 1
  operate _ x y := x + y
  truth x := x != 0
  answer trace _ _ := trace.length
  perform _ locals _ := (0, locals, [])

/-- The objects seven and eight in the variables. -/
def sevenEight : State Nat :=
  ⟨fun i => i + 7, []⟩

theorem variablesBelow_ofVariable (hv : v.id < bound) :
    (Node.ofVariable v).VariablesBelow bound := by
  refine Node.variablesBelow_mk.mpr ⟨fun w hw => ?_, fun _ h => absurd h List.not_mem_nil⟩
  cases hw
  exact hv

theorem variablesBelow_oneAfter {target source : Variable} (htarget : target.id < bound)
    (hsource : source.id < bound) : (oneAfter target source).VariablesBelow bound := by
  have hassign : (Node.binary .assign (.ofVariable target) (.ofVariable source)
      widget).VariablesBelow bound :=
    Node.variablesBelow_mk.mpr ⟨nofun, List.forall_mem_cons.mpr ⟨variablesBelow_ofVariable htarget,
      List.forall_mem_singleton.mpr (variablesBelow_ofVariable hsource)⟩⟩
  have hone : (Node.integer .standard .i4 1).VariablesBelow bound :=
    Node.variablesBelow_mk.mpr ⟨nofun, fun _ h => absurd h List.not_mem_nil⟩
  exact Node.variablesBelow_mk.mpr ⟨nofun, List.forall_mem_cons.mpr ⟨hassign,
    List.forall_mem_singleton.mpr hone⟩⟩

/-- If the value assigns the other variable, the sequence means what the update means. -/
theorem other_assigned_same :
    ∃ sequence scope', (propertyUpdate .standard).reduct?
        (updateCount (oneAfter (widgetVariable 1 "b") (widgetVariable 0 "a"))) widgets
        = (.ok (some sequence), scope')
      ∧ SameMeaning 2 (counting.eval sequence sevenEight)
          (counting.eval (updateCount (oneAfter (widgetVariable 1 "b") (widgetVariable 0 "a")))
            sevenEight) := by
  have hop : BinaryOp.addAssign.compoundBase? = some .add := rfl
  have hset : count.setter?.isSome = true := rfl
  have hreceiver : ∀ o ∈ [Node.ofVariable (widgetVariable 0 "a")],
      o.VariablesBelow widgets.nextId :=
    List.forall_mem_singleton.mpr (variablesBelow_ofVariable (by decide))
  have hvalue : (oneAfter (widgetVariable 1 "b") (widgetVariable 0 "a")).VariablesBelow
      widgets.nextId := variablesBelow_oneAfter (by decide) (by decide)
  obtain ⟨sequence, scope', hstep, hmeaning⟩ :=
    sequence_meaning_iff .standard Core.standard.int32 hop hset hreceiver hvalue
  -- The receiver holds the object seven before and after the value.
  refine ⟨sequence, scope', hstep, (hmeaning counting sevenEight).1.mpr ⟨?_, ?_⟩⟩
  · refine .cons (fun v hv => ?_) .nil
    cases hv
    rfl
  · refine .cons (fun v hv => ?_) .nil
    cases hv
    rfl

/-- What an accessor is called on. -/
def calledOn? {V : Type} : Event V → Option (List V)
  | .got _ operands => some operands
  | .put _ operands _ => some operands
  | .done _ _ => none

/-- If the value assigns the receiver, the setter is called on another object than the getter. -/
theorem reassigned_receiver_differs :
    ∃ sequence scope', (propertyUpdate .standard).reduct?
        (updateCount (oneAfter (widgetVariable 0 "a") (widgetVariable 1 "b"))) widgets
        = (.ok (some sequence), scope')
      ∧ (counting.eval sequence sevenEight).2.trace.filterMap calledOn? = [[7], [8]]
      ∧ (counting.eval (updateCount (oneAfter (widgetVariable 0 "a") (widgetVariable 1 "b")))
          sevenEight).2.trace.filterMap calledOn? = [[7], [7]] :=
  ⟨_, _, rfl, by decide +kernel, by decide +kernel⟩

end ScriptLowering.Canonical
