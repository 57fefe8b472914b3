import ScriptLowering.Proofs.Canonical.Declaration
import ScriptLowering.Proofs.Lowering.Yields

/-!
# Copies of value types

A consumer of a value is handed what an expression was lowered to, and a copy of it where that is a
location of a value type. A handed over value can be an alias of a location all the same, as only
the outermost node and its type as it is written are looked at: a choice or a sequence can yield a
location, and a modified or pinned value type is not taken for one. These are the only ways
(`Lowerer.HandsOver.aliases_iff`).
-/

namespace ScriptLowering

namespace Script.Node

mutual

/-- Whether the value of a node may be that of a location: of the node itself, of a branch of a
choice, or of the end of a sequence. -/
def yieldsLocation : Node → Bool
  | ⟨.ternary _, _ :: branches⟩ => anyYieldsLocation branches
  | ⟨.comma, expressions⟩ => lastYieldsLocation expressions
  | ⟨form, _⟩ => form.isLocation

/-- Whether the value of some node may be that of a location. -/
def anyYieldsLocation : List Node → Bool
  | [] => false
  | n :: ns => n.yieldsLocation || anyYieldsLocation ns

/-- Whether the value of the last node may be that of a location. -/
def lastYieldsLocation : List Node → Bool
  | [] => false
  | [n] => n.yieldsLocation
  | _ :: n :: ns => lastYieldsLocation (n :: ns)

end

/-- Whether a node of a value type that is neither primitive nor an enumeration, seen through
modifiers, may yield a location itself and not a copy. -/
def aliases (c : Core) (r : Retyping) (n : Node) : Bool :=
  (n.computedType c r).strip.isStruct && n.yieldsLocation

/-- A location yields a location. -/
theorem yieldsLocation_of_isLocation {n : Node} (h : n.isLocation = true) :
    n.yieldsLocation = true := by
  obtain ⟨form, operands⟩ := n
  change form.isLocation = true at h
  cases form with
  | ternary _ | comma => cases h
  | _ => simpa only [yieldsLocation] using h

end Script.Node

namespace Lowering

open Script

/-! ### Handing over -/

/-- A value that is handed over: an expression lowered to a type, and copied while the types `r` are
in force. -/
def Lowerer.HandsOver (g : Lowerer) (e : Cil.Expr) (type : Ty) (r : Retyping) (v : Node) : Prop :=
  ∃ s s' value, ((g.expecting e type).run s : Except Error Node × State) = (.ok value, s')
    ∧ v = copied g.core r value

variable {r : Retyping}

theorem isStruct_of_copied {c : Core} {n : Node} (h : (copied c r n).isLocation = true) :
    ((copied c r n).computedType c r).isStruct = false := by
  unfold copied at h ⊢
  split at h
  · cases h
  · next hcopy =>
    rw [if_neg hcopy]
    rw [h, Bool.true_and, Bool.not_eq_true] at hcopy
    exact hcopy

variable {type : Ty} {v : Node}

theorem Lowerer.HandsOver.aliases_iff {g : Lowerer} {e : Cil.Expr} (h : g.HandsOver e type r v) :
    v.aliases g.core r = true
      ↔ (v.computedType g.core r).strip.isStruct = true
        ∧ ((v.isLocation = true ∧ (v.computedType g.core r).isBare = false)
          ∨ (v.isLocation = false ∧ v.yieldsLocation = true)) := by
  obtain ⟨s, s', value, hrun, rfl⟩ := h
  generalize hv : copied g.core r value = v
  rw [Node.aliases, Bool.and_eq_true, and_congr_right_iff]
  intro hstruct
  cases hlocation : v.isLocation with
  | false => simp
  | true =>
    have hyields := Node.yieldsLocation_of_isLocation hlocation
    have hwritten : (v.computedType g.core r).isStruct = false := by
      subst hv
      exact isStruct_of_copied hlocation
    cases hbare : (v.computedType g.core r).isBare with
    | false => simp [hyields]
    | true =>
      rw [Ty.strip_of_isBare hbare, hwritten] at hstruct
      cases hstruct

/-! ### What becomes of stored values -/

/-- A store of a value: an assignment of it, a write of it through a reference or a pointer, or a
compound assignment into which it was folded, as an operation on the target. -/
inductive Stored (v : Node) : Node → Prop
  | assigned (target : Node) (type : Ty) : Stored v (.binary .assign target v type)
  | through (address : Node) : Stored v ⟨.writeThrough, [address, v]⟩
  | at (unit : OffsetUnit) (element : Ty) (pointer offset : Node) :
      Stored v ⟨.pointerWrite unit element, [pointer, offset, v]⟩
  | folded (operation : BinaryOp) (type : Ty) (hfolded : v.form = .binary operation type)
      (prelude : List Node) (compound : BinaryOp) (target value : Node) (result : Ty) :
      Stored v (afterPrelude prelude (.binary compound target value result))

namespace Lowerer

variable (g : Lowerer) (e : Cil.Expr) (s : State)

theorem assign_stored (target v : Node) : Yields (g.assign target v) (Stored v) := by
  refine Yields.assign.mono ?_
  rintro _ ⟨type, rfl⟩
  exact .assigned target type

theorem form_of_foldable? {h : Hierarchy} {target : Node} {folded : BinaryOp × Node}
    (hfold : foldable? h r target v = some folded) :
    ∃ operation type, v.form = .binary operation type := by
  unfold foldable? at hfold
  split at hfold
  · exact ⟨_, _, rfl⟩
  · cases hfold

theorem store_stored (target v : Node) : Yields (g.store target v) (Stored v) := by
  refine .after fun c => ?_
  split
  · next hfold =>
    obtain ⟨operation, type, hform⟩ := form_of_foldable? hfold
    refine .after fun hoisted => Yields.compoundAssign.bind ?_
    rintro _ ⟨result, rfl⟩
    exact .pure (.folded operation type hform _ _ _ _ result)
  · exact g.assign_stored target v

theorem storeThrough_stored (address v : Node) (element : Ty) :
    Yields (g.storeThrough address v element) (Stored v) := by
  refine .after fun type => ?_
  split
  · exact .pure (.at _ _ _ _)
  · split
    case h_1 | h_2 | h_3 => exact .after fun target => g.store_stored target v
    case h_4 => exact .ite (fun _ => g.assign_stored _ v) fun _ => .pure (.through address)
    case h_5 => exact .pure (.through address)

/-! ### The consumers -/

variable {e} in
theorem copy_handsOver {s₀ s₁ : State} {value : Node}
    (hrun : (g.expecting e type).run s₀ = (.ok value, s₁)) :
    Yields (g.copy value) fun v => ∃ r, g.HandsOver e type r v :=
  .after fun c => .pure ⟨c.scope.retyping, s₀, s₁, value, hrun, rfl⟩

theorem expecting_copy_handsOver (type : Ty) :
    Yields (do g.copy (← g.expecting e type)) fun v => ∃ r, g.HandsOver e type r v :=
  Yields.ran.bind fun _ ⟨_, _, hrun⟩ => g.copy_handsOver hrun

/-- An argument of an instruction. -/
theorem argument_answers (index : Nat) : Yields (argument e index) (· ∈ e.arguments) := by
  unfold argument
  split
  · next a ha => exact .pure (List.mem_of_getElem? ha)
  · exact .throw

theorem consuming {index : Nat} {f : Node → Lower Node} {post : Node → Prop}
    (hf : ∀ a ∈ e.arguments, ∀ r v, g.HandsOver a type r v → Yields (f v) post) :
    Yields (do f (← g.copy (← g.expecting (← argument e index) type))) post := by
  refine (argument_answers e index).bind fun a ha => Yields.ran.bind ?_
  rintro value ⟨_, _, hrun⟩
  exact (g.copy_handsOver hrun).bind fun v ⟨r, hv⟩ => hf a ha r v hv

/-- What a storing instruction leads to: the store of an argument that is handed over, or the
placeholder of a field that is ignored. -/
def Stores (n : Node) : Prop :=
  (∃ f, n = ignoredField f)
    ∨ ∃ a ∈ e.arguments, ∃ type r v, g.HandsOver a type r v ∧ Stored v n

theorem stores_of_handedOver {a : Cil.Expr} (ha : a ∈ e.arguments) (hv : g.HandsOver a type r v)
    {x : Lower Node} (hx : Yields x (Stored v)) : Yields x (g.Stores e) :=
  hx.mono fun _ hn => .inr ⟨a, ha, type, r, v, hv, hn⟩

theorem storeLocal_stores : Yields (g.storeLocal e) (g.Stores e) := by
  refine .after fun operand => .after fun w => (argument_answers e 0).bind fun a ha => ?_
  refine .after fun type => Yields.ran.bind ?_
  rintro value ⟨_, _, hrun⟩
  -- Retyping the variable comes between lowering and copying.
  have hstore : Yields (do g.store (.ofVariable w) (← g.copy value)) (g.Stores e) :=
    (g.copy_handsOver hrun).bind fun v ⟨_, hv⟩ => g.stores_of_handedOver e ha hv (g.store_stored _ v)
  refine .after fun valueType => .after fun variableType => ?_
  exact .ite (fun _ => .after fun _ => hstore) fun _ => hstore

theorem storeField_stores : Yields (g.storeField e) (g.Stores e) := by
  refine .after fun f => .after fun directive? => .ite (fun _ => .pure (.inl ⟨f, rfl⟩)) fun _ => ?_
  refine .after fun target => ?_
  exact g.consuming e fun a ha _ v hv => g.stores_of_handedOver e ha hv (g.store_stored _ v)

theorem storeElement_stores : Yields (g.storeElement e) (g.Stores e) := by
  refine .ite (fun _ => .throw) fun _ => .after fun place => ?_
  exact g.consuming e fun a ha _ v hv => g.stores_of_handedOver e ha hv (g.store_stored _ v)

theorem storeIndirect_stores : Yields (g.storeIndirect e) (g.Stores e) := by
  refine .after fun _ => .after fun address => .after fun _ => .after fun element => ?_
  exact g.consuming e fun a ha _ v hv =>
    g.stores_of_handedOver e ha hv (g.storeThrough_stored _ v _)

/-- The values that are passed for parameters: handed over for a parameter by value, an argument by
reference for one by reference, and any value in excess of the parameters. -/
inductive Passes : List MethodParameter → List Cil.Expr → List Node → Prop
  | nil (ps : List MethodParameter) : Passes ps [] []
  | byValue {p : MethodParameter} {ps : List MethodParameter} {a : Cil.Expr} {as : List Cil.Expr}
      {r : Retyping} {v : Node} {vs : List Node} (hp : p.type.isByRef = false)
      (hv : g.HandsOver a p.type r v) (hrest : Passes ps as vs) : Passes (p :: ps) (a :: as) (v :: vs)
  | byReference {p : MethodParameter} {ps : List MethodParameter} {a : Cil.Expr}
      {as : List Cil.Expr} {reference : Node} {vs : List Node} (hp : p.type.isByRef = true)
      (hrest : Passes ps as vs) : Passes (p :: ps) (a :: as) (⟨.passByReference, [reference]⟩ :: vs)
  | excess {a : Cil.Expr} {as : List Cil.Expr} {v : Node} {vs : List Node}
      (hrest : Passes [] as vs) : Passes [] (a :: as) (v :: vs)

variable {p : MethodParameter}

theorem callArgument_byValue (m : Method) (hp : p.type.isByRef = false) :
    Yields (g.callArgument m p e) fun v => ∃ r, g.HandsOver e p.type r v := by
  unfold callArgument
  rw [hp]
  exact g.expecting_copy_handsOver e p.type

theorem callArgument_byReference (m : Method) (hp : p.type.isByRef = true) :
    Yields (g.callArgument m p e) fun v => ∃ reference, v = ⟨.passByReference, [reference]⟩ := by
  unfold callArgument
  rw [hp]
  exact .after fun node => .after fun reference => Yields.make.mono fun _ hv => ⟨reference, hv⟩

theorem callArguments_passes (m : Method) :
    ∀ (ps : List MethodParameter) (as : List Cil.Expr),
      Yields (g.callArguments m ps as) (g.Passes ps as)
  | ps, [] => by
    unfold callArguments
    exact .pure (.nil ps)
  | [], a :: as => by
    unfold callArguments
    refine .after fun v => (callArguments_passes m [] as).bind fun vs hrest => ?_
    exact .pure (.excess hrest)
  | p :: ps, a :: as => by
    have ih := callArguments_passes m ps as
    unfold callArguments
    cases hp : p.type.isByRef with
    | false =>
      refine (g.callArgument_byValue a m hp).bind fun v ⟨r, hv⟩ => ih.bind fun vs hrest => ?_
      exact .pure (.byValue hp hv hrest)
    | true =>
      refine (g.callArgument_byReference a m hp).bind ?_
      rintro _ ⟨reference, rfl⟩
      exact ih.bind fun vs hrest => .pure (.byReference hp hrest)

theorem initArray_handsOver :
    Yields (g.initArray e) fun n => ∃ element vs, n = ⟨.arrayLiteral element, vs⟩
      ∧ List.Forall₂ (fun a v => ∃ r, g.HandsOver a element r v) e.arguments vs := by
  refine .after fun element => ?_
  refine (Yields.each (g.expecting_copy_handsOver · element) e.arguments).bind fun vs hvs => ?_
  exact .pure ⟨element, vs, rfl, hvs⟩

/-- A boxed value is handed over. -/
theorem box_handsOver :
    Yields (g.box e) fun n => ∃ a ∈ e.arguments, ∃ type r v, n = .changeType v g.core.object
      ∧ g.HandsOver a type r v :=
  .after fun type => g.consuming e fun a ha r v hv => .pure ⟨a, ha, type, r, v, rfl, hv⟩

theorem returnValue_handsOver :
    Yields (g.returnValue e) fun n => n = .returnValue .empty
      ∨ ∃ a ∈ e.arguments, ∃ r v, n = .returnValue v ∧ g.HandsOver a g.method.returnType r v := by
  unfold returnValue
  split
  · exact .pure (.inl rfl)
  · next a rest harguments =>
    refine Yields.ran.bind ?_
    rintro value ⟨_, _, hrun⟩
    refine (g.copy_handsOver hrun).bind ?_
    rintro v ⟨r, hv⟩
    exact .pure (.inr ⟨a, harguments ▸ List.mem_cons_self, r, v, rfl, hv⟩)

/-- What a call becomes with the values that are passed: an invocation or a creation, a form of its
own that a library call has, or the access to a property. -/
inductive Invokes (vs : List Node) : Node → Prop
  | invocation (m : Method) (dispatch : Dispatch) (explicit : Bool) (receiver : Node) :
      Invokes vs (.invocation m dispatch explicit receiver vs)
  | packed (m : Method) (dispatch : Dispatch) (explicit : Bool) (receiver : Node) :
      Invokes vs (packed (.invocation m dispatch explicit receiver vs) m.returnType)
  | creation (constructor : Method) (type : Ty) : Invokes vs ⟨.newObject constructor type, vs⟩
  | form {call n : Node} (hcall : Invokes vs call) (r : Retyping)
      (hform : Canonical.replaceCall? g.env.types r call = some n) : Invokes vs n
  | getter (property : Property) (target : Node) : Invokes vs (.propertyAccess property target vs)
  | setter (property : Property) (target v : Node) (hlast : vs.getLast? = some v) (type : Ty) :
      Invokes vs (.binary .assign (.propertyAccess property target vs.dropLast) v type)

/-- What a call leads to: script text with arguments that are lowered as they are, a placeholder, a
constant, or a call with the values that are passed for the parameters. -/
inductive Calls : Node → Prop
  | text (text : String) (names : List String) (result : Ty) {operands : List Node} (count : Nat)
      (hoperands : List.Forall₂
        (fun a v => ∃ s s', ((g.expression a).run s : Except Error Node × State) = (.ok v, s'))
        (e.arguments.take count) operands) : Calls ⟨.verbatim text names result, operands⟩
  | ignored (m : Method) : Calls (ignoredCall m)
  | constant (l : Literal) : Calls (.literal l)
  | passing (m : Method) (skipped : Nat) {vs : List Node} {n : Node}
      (hvs : g.Passes m.parameters (e.arguments.drop skipped) vs) (hn : g.Invokes vs n) : Calls n

theorem replaced_calls (m : Method) (text : String) :
    Yields (g.replaced e m text) (g.Calls e) :=
  (Yields.each (fun _ => Yields.ran) _).bind fun _ hoperands => .pure (.text text _ _ _ hoperands)

theorem earlyForm?_answers (node : Node) :
    Yields (g.earlyForm? node) fun form? => ∀ form, form? = some form →
      ∃ r, Canonical.replaceCall? g.env.types r node = some form := by
  refine .ite (fun _ => .after fun c => .pure fun form hform => ⟨_, hform⟩) fun _ => ?_
  exact .pure fun form hform => by cases hform

theorem accessorForm?_answers (m : Method) (dispatch : Dispatch) (receiver : Node)
    (vs : List Node) :
    Yields (g.accessorForm? m dispatch receiver vs) fun access? =>
      ∀ access, access? = some access → g.Invokes vs access := by
  have hnone : Yields (pure none : Lower (Option Node)) fun access? =>
      ∀ access, access? = some access → g.Invokes vs access := .pure (by simp)
  refine .ite (fun _ => hnone) fun _ => .after fun property? => ?_
  split
  · exact hnone
  · next property =>
    refine .after fun target => .ite (fun _ => .pure ?_) fun _ => ?_
    · rintro _ ⟨⟩
      exact .getter property _
    · split
      · exact hnone
      · next v hlast =>
        refine Yields.assign.bind ?_
        rintro _ ⟨type, rfl⟩
        refine .pure ?_
        rintro _ ⟨⟩
        exact .setter property _ v hlast type

theorem invocation_calls (m : Method) (packsResult : Bool) :
    Yields (g.invocation e m packsResult) (g.Calls e) := by
  unfold invocation
  extract_lets rest
  -- The same happens with a receiver and without one.
  have hrest : ∀ r, Yields (rest r) (g.Calls e) := by
    intro r
    refine (g.callArguments_passes m m.parameters _).bind fun vs hvs => ?_
    extract_lets dispatch node
    refine (g.earlyForm?_answers node).bind fun form? hform => ?_
    split
    · next form =>
      obtain ⟨r, hform⟩ := hform form rfl
      exact .pure (.passing m _ hvs (.form (.invocation ..) r hform))
    · refine (g.accessorForm?_answers m _ _ vs).bind fun access? haccess => ?_
      split
      · next access => exact .pure (.passing m _ hvs (haccess access rfl))
      · refine .pure (.passing m _ hvs ?_)
        split
        · exact .packed ..
        · exact .invocation ..
  split
  · exact hrest (.empty, false)
  · exact .after fun a => .after fun r => hrest r

theorem call_calls : Yields (g.call e) (g.Calls e) := by
  refine .after fun called => .after fun directive? => ?_
  split
  · exact g.replaced_calls e _ _
  · refine .after fun ignored => .ite (fun _ => .pure (.ignored called)) fun _ => ?_
    simp only
    split
    · next constant hconstant =>
      obtain ⟨l, rfl⟩ : ∃ l, constant = .literal l := by
        unfold typeFromHandle? at hconstant
        split at hconstant
        · split at hconstant
          · exact ⟨_, (Option.some.inj hconstant).symm⟩
          · cases hconstant
        · cases hconstant
      exact .pure (.constant l)
    · exact g.invocation_calls e _ _

theorem newObject_calls : Yields (g.newObject e) (g.Calls e) := by
  refine .after fun called => .after fun directive? => ?_
  split
  · exact g.replaced_calls e _ _
  · refine .after fun ignored => .ite (fun _ => .pure (.ignored called)) fun _ => ?_
    refine (g.callArguments_passes _ _ _).bind fun vs hvs => ?_
    refine (g.earlyForm?_answers _).bind fun form? hform => ?_
    cases form? with
    | none => exact .pure (.passing _ 0 hvs (.creation ..))
    | some form =>
      obtain ⟨r, hform⟩ := hform form rfl
      exact .pure (.passing _ 0 hvs (.form (.creation ..) r hform))

/-- How the values were handed over that an instruction consumed to become a node. -/
def Consumes (n : Node) : Rule → Prop
  | .storeLocal | .storeField | .storeElement | .storeIndirect => g.Stores e n
  | .initArray =>
    ∃ element vs, n = ⟨.arrayLiteral element, vs⟩
      ∧ List.Forall₂ (fun a v => ∃ r, g.HandsOver a element r v) e.arguments vs
  | .box =>
    ∃ a ∈ e.arguments, ∃ type r v, n = .changeType v g.core.object ∧ g.HandsOver a type r v
  | .returnValue =>
    n = .returnValue .empty
      ∨ ∃ a ∈ e.arguments, ∃ r v, n = .returnValue v ∧ g.HandsOver a g.method.returnType r v
  | .call | .newObject => g.Calls e n
  | _ => True

theorem apply_consumes (rule : Rule) :
    Leads (g.apply e rule) s (fun n _ => g.Consumes e n rule) fun _ => True := by
  revert s
  change Yields (g.apply e rule) fun n => g.Consumes e n rule
  cases rule with
  | storeLocal => exact g.storeLocal_stores e
  | storeField => exact g.storeField_stores e
  | storeElement => exact g.storeElement_stores e
  | storeIndirect => exact g.storeIndirect_stores e
  | initArray => exact g.initArray_handsOver e
  | box => exact g.box_handsOver e
  | returnValue => exact g.returnValue_handsOver e
  | call => exact g.call_calls e
  | newObject => exact g.newObject_calls e
  | _ => exact .any

/-- An instruction that stores, passes, boxes or returns values consumes what was handed over; and a
handed over value of a value type yields a location uncopied exactly if it is a location whose type
is modified or pinned, or a choice or sequence that yields a location. -/
theorem handed_over_aliases_iff (n : Node) (s' : State)
    (hrun : ((g.apply e (ruleOf e.code)).run s : Except Error Node × State) = (.ok n, s')) :
    g.Consumes e n (ruleOf e.code)
      ∧ ∀ a type r v, g.HandsOver a type r v →
        (v.aliases g.core r = true
          ↔ (v.computedType g.core r).strip.isStruct = true
            ∧ ((v.isLocation = true ∧ (v.computedType g.core r).isBare = false)
              ∨ (v.isLocation = false ∧ v.yieldsLocation = true))) := by
  refine ⟨?_, fun a type r v hv => hv.aliases_iff⟩
  rcases (g.apply_consumes e s (ruleOf e.code)).of_run hrun with ⟨n', hn', hconsumes⟩ | ⟨⟨error, h⟩, -⟩
  · obtain rfl := Except.ok.inj hn'
    exact hconsumes
  · cases h

end Lowerer

/-! ### Stores of a value type -/

/-- A value type that is no core type. -/
def pairType : Ty :=
  .named (.plain 40 "App" "Pair" (.ofFile "App") .valueType)

/-- A local. -/
def localOf (name : String) (type : Ty) : Cil.Variable :=
  ⟨name, type, .localSlot 0, false⟩

/-- The load of a local. -/
def loadOf (name : String) (type : Ty) : Cil.Expr :=
  .plain .ldloc (.var (localOf name type)) []

/-- A method that stores a value into a local of a value type. -/
def storingMethod (value : Cil.Expr) : Cil.MethodBody :=
  .ofMethod
    { name := "Store"
      declaringType := .named (.plain 41 "App" "Program" (.ofFile "App") .classType)
      returnType := Core.standard.void
      parameters := []
      genericArguments := []
      flags := { MethodFlags.empty with isStatic := true } }
    [] [] [.expression (.plain .stloc (.var (localOf "x" pairType)) [value])]

/-- The value that an assignment assigns. -/
def assignedValue? : Node → Option Node
  | ⟨.binary .assign _, [_, value]⟩ => some value
  | _ => none

/-- Of every value that the lowered method assigns, whether it aliases a location. -/
def assignedAliases (body : Cil.MethodBody) : Option (List Bool) :=
  (lower plainEnv body .start).1.toOption.map fun m =>
    (m.body.selfAndDescendants.filterMap assignedValue?).map
      (·.aliases plainEnv.core m.scope.retyping)

/-- A local of a value type is stored as a copy. -/
theorem stored_pair_copied :
    let g := Lowerer.ofMethod plainEnv (storingMethod (loadOf "a" pairType)).method
    let e := Cil.Expr.plain .stloc (.var (localOf "x" pairType)) [loadOf "a" pairType]
    let s : State := ⟨.start true 512, .start⟩
    ∃ n s', ((g.apply e (ruleOf e.code)).run s : Except Error Node × State) = (.ok n, s')
      ∧ g.Stores e n ∧ assignedAliases (storingMethod (loadOf "a" pairType)) = some [false] := by
  intro g e s
  have hanswers : ((g.apply e (ruleOf e.code)).run s).1.isOk = true := by decide +kernel
  rcases h : ((g.apply e (ruleOf e.code)).run s : Except Error Node × State) with ⟨_ | n, s'⟩
  · rw [h] at hanswers
    cases hanswers
  · exact ⟨n, s', rfl, (g.handed_over_aliases_iff e s n s' h).1, by decide +kernel⟩

/-- A choice between two locals of a value type is stored as it is, and so is a local whose value
type is modified: what is stored aliases a local. -/
theorem choice_and_modified_pair_aliased :
    assignedAliases (storingMethod (.plain .ternaryOp .none
        [loadOf "c" Core.standard.boolean, loadOf "a" pairType, loadOf "b" pairType])) = some [true]
      ∧ assignedAliases
          (storingMethod (loadOf "a" (.modified pairType Core.standard.object false)))
        = some [true] := by
  decide +kernel

end Lowering

end ScriptLowering
