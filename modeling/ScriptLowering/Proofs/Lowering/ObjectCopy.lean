import ScriptLowering.Proofs.Canonical.Declaration
import ScriptLowering.Proofs.Lowering.Sinking

/-!
# Copying an object and loading and storing it

An object is copied from one address to another in one instruction, or loaded from the one and
stored through the other in two. Both lower the two addresses, and store through the first what they
take from the second (`Lowerer.transfer`). They take the same from a reference: the location that it
designates. The load reads through a pointer, but the copy does not, and stores the pointer itself.
-/

namespace ScriptLowering

open Script Lowering

/-- An expression with a code, a type operand and arguments. -/
def Cil.Expr.Accesses (e : Cil.Expr) (code : Cil.Opcode) (type : Ty)
    (arguments : List Cil.Expr) : Prop :=
  e.code = code ∧ e.operand = .type type ∧ e.arguments = arguments

namespace Lowering

/-- A node whose type is a reference to a type. -/
def RefersTo (h : Hierarchy) (r : Retyping) (n : Node) (type : Ty) : Prop :=
  (n.computedType h.core r).isByRef = true
    ∧ (n.computedType h.core r).elementType?.any (h.same type) = true

instance {h : Hierarchy} {r : Retyping} {n : Node} {type : Ty} : Decidable (RefersTo h r n type) :=
  inferInstanceAs (Decidable (_ ∧ _))

/-- A node whose type is a pointer to a type, and that was not declared as a reference. -/
def PointsTo (h : Hierarchy) (r : Retyping) (n : Node) (type : Ty) : Prop :=
  (n.computedType h.core r).isPointer = true
    ∧ (n.computedType h.core r).elementType?.any (h.same type) = true
    ∧ ∀ v, n.form = .var v → v.isReference = false

variable {n : Node}

theorem Located.computedType {c : Core} {r : Retyping} {location : Node} {referent : Ty}
    (h : Located c r n location) (hreferent : (n.computedType c r).elementType? = some referent) :
    location.computedType c r = referent ∨ location = n := by
  have hderef : (Node.dereference n).computedType c r = referent := by
    simp [Node.dereference, Node.computedType, Form.typeRule, Node.typeAt, hreferent]
  cases h with
  | @taken operands =>
    left
    cases operands <;>
      simpa [Node.computedType, Form.typeRule, Node.typeAt, Ty.elementType?, Node.empty]
        using hreferent
  | member =>
    left
    simpa [Node.fieldAccess, Node.computedType, Form.typeRule, Ty.elementType?] using hreferent
  | element =>
    left
    simpa [Node.elementAccess, Node.computedType, Form.typeRule, Ty.elementType?] using hreferent
  | declared | referent => exact .inl hderef
  | @result m =>
    left
    simpa [Node.computedType, Form.typeRule, Node.typeAt] using
      congrArg (·.getD m.returnType) hreferent
  | slot | itself => exact .inr rfl

theorem coerced_locationOf {h : Hierarchy} {c : Context} {type : Ty}
    (hn : RefersTo h c.scope.retyping n type) :
    coerced h c (locationOf h.core c.scope.retyping n) type
      = locationOf h.core c.scope.retyping n := by
  obtain ⟨hreference, hreferent⟩ := hn
  obtain ⟨referent, hreferent, hsame⟩ := (Option.any_eq_true _ _).mp hreferent
  have hleft : (h.same type ((locationOf h.core c.scope.retyping n).computedType h.core
        c.scope.retyping) || isAddress type || isAddress ((locationOf h.core c.scope.retyping
          n).computedType h.core c.scope.retyping)) = true := by
    rcases (located_locationOf ..).computedType hreferent with htype | hself
    · rw [htype, hsame, Bool.true_or, Bool.true_or]
    · rw [hself, isAddress, isAddress, hreference, Bool.or_true, Bool.or_true]
  unfold coerced
  split
  · rfl
  · exact if_pos hleft

theorem of_isPointer : ∀ {t : Ty}, t.isPointer = true → t.isByRef = false ∧ t.isStruct = false
  | .pointer _, _ => ⟨rfl, rfl⟩
  | .modified element _ _, h | .pinned element, h => ⟨(of_isPointer (t := element) h).1, rfl⟩
  | .named _, h | .nested _ _, h | .array _ _, h | .byRef _, h | .inst _ _, h | .typeParam _ _ _, h
  | .methodParam _ _ _ _ _, h | .functionPointer _ _, h => by cases h

/-- A pointer designates itself. -/
theorem copied_locationOf {h : Hierarchy} {r : Retyping} {type : Ty} (hn : PointsTo h r n type) :
    copied h.core r (locationOf h.core r n) = n := by
  obtain ⟨hpointer, -, hdeclared⟩ := hn
  obtain ⟨hreference, hstruct⟩ := of_isPointer hpointer
  have hself : locationOf h.core r n = n := by
    have hlocated := located_locationOf h.core r n
    generalize locationOf h.core r n = location at hlocated ⊢
    cases hlocated with
    | taken | member | element => cases hpointer
    | @declared v _ href => cases href.symm.trans (hdeclared v rfl)
    | result href => cases href.symm.trans hreference
    | referent href => cases href.symm.trans hreference
    | slot | itself => rfl
  rw [hself, copied, hstruct, Bool.and_false]
  rfl

namespace Lowerer

variable {g : Lowerer} {destination source : Cil.Expr} {type : Ty}
  {taken taken' : Node → Lower Node}

/-- Lowers two addresses, for the second. -/
def sourceOf (g : Lowerer) (destination source : Cil.Expr) : Lower Node := do
  let _ ← g.raw destination
  g.raw source

/-- Lowers two addresses, and stores through the first what is taken from the second. -/
def transfer (g : Lowerer) (destination source : Cil.Expr) (type : Ty)
    (taken : Node → Lower Node) : Lower Node := do
  let place ← g.raw destination
  let value ← taken (← g.raw source)
  g.storeThrough place value type

/-- What a copy takes from an address. -/
def copyTaken (g : Lowerer) (address : Node) : Lower Node := do
  g.copy (← g.location address)

/-- What is loaded from an address. -/
def loaded (g : Lowerer) (type : Ty) (address : Node) : Lower Node := do
  if (← g.typeOf address).isPointer then
    return pointerRead address type
  else
    g.location address

/-- What a store takes from the address that it is to load from. -/
def loadTaken (g : Lowerer) (type : Ty) (address : Node) : Lower Node := do
  g.copy (← g.coerce (← g.loaded type address) type)

variable {s : State}

theorem run_transfer_congr
    (h : Leads (g.sourceOf destination source) s
      (fun n s' => ((taken n).run s') = (taken' n).run s') fun _ => True) :
    (g.transfer destination source type taken).run s
      = (g.transfer destination source type taken').run s := by
  unfold Leads sourceOf at h
  rw [run_bind_eq] at h
  rw [transfer, transfer, run_bind_eq, run_bind_eq]
  rcases hplace : (g.raw destination).run s with ⟨e | place, s₁⟩
  · rfl
  · rw [hplace] at h
    dsimp only at h ⊢
    rw [run_bind_eq, run_bind_eq]
    rcases hn : (g.raw source).run s₁ with ⟨e | n, s₂⟩
    · rfl
    · rw [hn] at h
      dsimp only at h ⊢
      rw [run_bind_eq, run_bind_eq, h]

theorem copyObject_eq {e : Cil.Expr} (he : e.Accesses .cpobj type [destination, source]) :
    g.copyObject e = g.transfer destination source type g.copyTaken := by
  obtain ⟨_, _, _, _, _, _⟩ := e
  obtain ⟨rfl, rfl, rfl⟩ := he
  rfl

theorem echoes_storeIndirect {store load : Cil.Expr}
    (hstore : store.Accesses .stobj type [destination, load])
    (hload : load.Accesses .ldobj type [source])
    (hraw : Echoes (g.raw load) (g.loadIndirect load)) :
    Echoes (g.storeIndirect store) (g.transfer destination source type (g.loadTaken type)) := by
  have hbind : g.storeIndirect store = (do
      let place ← g.raw destination
      let value ← g.raw load
      g.storeThrough place (← g.copy (← g.coerce value type)) type) := by
    obtain ⟨_, _, _, _, _, _⟩ := store
    obtain ⟨rfl, rfl, rfl⟩ := hstore
    change (do
      let place ← g.raw destination
      let value ← g.expecting load type
      g.storeThrough place (← g.copy value) type) = _
    simp only [expecting, bind_assoc]
  have hloaded : g.loadIndirect load = g.raw source >>= g.loaded type := by
    obtain ⟨_, _, _, _, _, _⟩ := load
    obtain ⟨rfl, rfl, rfl⟩ := hload
    rfl
  have htransfer : g.transfer destination source type (g.loadTaken type) = (do
      let place ← g.raw destination
      let value ← g.loadIndirect load
      g.storeThrough place (← g.copy (← g.coerce value type)) type) := by
    simp only [hloaded, transfer, loadTaken, bind_assoc]
  rw [hbind, htransfer]
  exact .bind (.refl _) fun place => .bind hraw fun value => .refl _

theorem run_loadTaken (n : Node) (s : State) :
    (g.loadTaken type n).run s
      = (.ok (copied g.core s.context.scope.retyping (coerced g.env.types s.context
          (if (n.computedType g.core s.context.scope.retyping).isPointer then pointerRead n type
            else locationOf g.core s.context.scope.retyping n) type)), s) := by
  have hloaded : (g.loaded type n).run s
      = (.ok (if (n.computedType g.core s.context.scope.retyping).isPointer then
          pointerRead n type else locationOf g.core s.context.scope.retyping n), s) := by
    change (if (n.computedType g.core s.context.scope.retyping).isPointer then
      pure (pointerRead n type) else g.location n : Lower Node).run s = _
    split <;> rfl
  rw [loadTaken, run_bind_eq, hloaded]
  rfl

theorem loadTaken_of_refersTo (hn : RefersTo g.env.types s.context.scope.retyping n type) :
    (g.loadTaken type n).run s = (g.copyTaken n).run s := by
  have hpointer : ¬(n.computedType g.core s.context.scope.retyping).isPointer = true :=
    fun h => Bool.false_ne_true ((of_isPointer h).1.symm.trans hn.1)
  have hcoerced : coerced g.env.types s.context (locationOf g.core s.context.scope.retyping n) type
      = locationOf g.core s.context.scope.retyping n := coerced_locationOf hn
  rw [run_loadTaken, if_neg hpointer, hcoerced]
  rfl

/-- From a pointer, a copy takes the pointer. -/
theorem copyTaken_of_pointsTo (hn : PointsTo g.env.types s.context.scope.retyping n type) :
    (g.copyTaken n).run s = (pure n : Lower Node).run s := by
  have hrun : (g.copyTaken n).run s
      = (.ok (copied g.env.types.core s.context.scope.retyping
          (locationOf g.env.types.core s.context.scope.retyping n)), s) := rfl
  rw [hrun, copied_locationOf hn]
  rfl

theorem loadTaken_of_pointsTo (hn : PointsTo g.env.types s.context.scope.retyping n type) :
    (g.loadTaken type n).run s
      = (g.coerce (pointerRead n type) type).run s := by
  have hpointer : (n.computedType g.core s.context.scope.retyping).isPointer = true := hn.1
  have hvalue : (coerced g.env.types s.context (pointerRead n type) type).isLocation = false := by
    have hnone : literalAs? (pointerRead n type) type = none := rfl
    simp only [coerced, hnone]
    split
    · rfl
    · split
      · rfl
      · split <;> rfl
  rw [run_loadTaken, if_pos hpointer, copied, hvalue, Bool.false_and]
  rfl

variable {env : Env} {method : Method} {levels : Nat} {copy load store : Cil.Expr}

theorem lowerUpTo_copyObject (hcopy : copy.Accesses .cpobj type [destination, source]) :
    lowerUpTo env method (levels + 1) copy = Lower.oneLevelDown
      ((upTo env method levels).transfer destination source type
        (upTo env method levels).copyTaken) := by
  rw [lowerUpTo, hcopy.1, ← copyObject_eq hcopy]
  rfl

theorem echoes_lowerUpTo_store (hload : load.Accesses .ldobj type [source])
    (hstore : store.Accesses .stobj type [destination, load]) :
    Echoes (lowerUpTo env method (levels + 1) store) (Lower.oneLevelDown
      ((upTo env method levels).transfer destination source type
        ((upTo env method levels).loadTaken type))) := by
  have hraw : Echoes ((upTo env method levels).raw load) _ := inlines_lowerUpTo levels load
  rw [hload.1] at hraw
  rw [lowerUpTo, hstore.1]
  exact (echoes_storeIndirect hstore hload hraw).oneLevelDown

end Lowerer

end Lowering

variable {env : Env} {method : Method} {levels : Nat} {type : Ty}
  {destination source copy load store : Cil.Expr}

open Lowerer

/-- Unless the load is too deep for its level, copying an object from a reference does what loading
and storing it does. From a pointer, the copy stores the pointer and the store what is read through
it. -/
theorem copy_from_reference_loads_and_stores (s : State)
    (hcopy : copy.Accesses .cpobj type [destination, source])
    (hload : load.Accesses .ldobj type [source])
    (hstore : store.Accesses .stobj type [destination, load]) :
    TooDeep ((lowerUpTo env method (levels + 1) store).run s)
    ∨ (Leads ((upTo env method levels).sourceOf destination source) s.sunk
          (fun n after => RefersTo env.types after.context.scope.retyping n type) (fun _ => True) →
        ((lowerUpTo env method (levels + 1) store).run s : Except Error Node × State)
          = (lowerUpTo env method (levels + 1) copy).run s)
      ∧ (Leads ((upTo env method levels).sourceOf destination source) s.sunk
          (fun n after => PointsTo env.types after.context.scope.retyping n type) (fun _ => True) →
        ((lowerUpTo env method (levels + 1) copy).run s : Except Error Node × State)
          = (Lower.oneLevelDown
              ((upTo env method levels).transfer destination source type pure)).run s
        ∧ ((lowerUpTo env method (levels + 1) store).run s : Except Error Node × State)
          = (Lower.oneLevelDown ((upTo env method levels).transfer destination source type
              fun n => (upTo env method levels).coerce (pointerRead n type) type)).run s) := by
  rcases echoes_lowerUpTo_store hload hstore s with hdeep | hsame
  · exact .inl hdeep
  · rw [hsame, lowerUpTo_copyObject hcopy]
    refine .inr ⟨fun hsource => ?_, fun hsource => ⟨?_, ?_⟩⟩
    · exact run_oneLevelDown_congr (run_transfer_congr
        (hsource.mono (fun _ _ hn => loadTaken_of_refersTo hn) fun _ h => h))
    · exact run_oneLevelDown_congr (run_transfer_congr
        (hsource.mono (fun _ _ hn => copyTaken_of_pointsTo hn) fun _ h => h))
    · exact run_oneLevelDown_congr (run_transfer_congr
        (hsource.mono (fun _ _ hn => loadTaken_of_pointsTo hn) fun _ h => h))

/-- A variable that holds an address. -/
def addressIn (address : Ty) (name : String) (slot : Nat) : Cil.Expr :=
  .plain .ldloc (.var ⟨name, address, .localSlot slot, false⟩) []

/-- An integer copied from one address to another. -/
def integerCopied (address : Ty) : Cil.Expr :=
  .plain .cpobj (.type Core.standard.int32)
    [addressIn address "target" 0, addressIn address "origin" 1]

/-- An integer loaded from one address and stored through another. -/
def integerStored (address : Ty) : Cil.Expr :=
  .plain .stobj (.type Core.standard.int32)
    [addressIn address "target" 0,
      .plain .ldobj (.type Core.standard.int32) [addressIn address "origin" 1]]

theorem integer_copied_from_reference :
    (Leads ((upTo plainEnv loopingMethod.method 3).sourceOf
        (addressIn (.byRef Core.standard.int32) "target" 0)
        (addressIn (.byRef Core.standard.int32) "origin" 1)) (State.initial plainEnv .start).sunk
      (fun n after => RefersTo plainEnv.types after.context.scope.retyping n Core.standard.int32)
      fun _ => True)
    ∧ ((lowerUpTo plainEnv loopingMethod.method 4
        (integerStored (.byRef Core.standard.int32))).run
        (.initial plainEnv .start) : Except Error Node × State)
      = (lowerUpTo plainEnv loopingMethod.method 4
        (integerCopied (.byRef Core.standard.int32))).run (.initial plainEnv .start) := by
  have hsource : Leads ((upTo plainEnv loopingMethod.method 3).sourceOf
      (addressIn (.byRef Core.standard.int32) "target" 0)
      (addressIn (.byRef Core.standard.int32) "origin" 1)) (State.initial plainEnv .start).sunk
      (fun n after => RefersTo plainEnv.types after.context.scope.retyping n Core.standard.int32)
      fun _ => True := by
    decide +kernel
  have hanswers : ((lowerUpTo plainEnv loopingMethod.method 4
      (integerStored (.byRef Core.standard.int32))).run
      (.initial plainEnv .start) : Except Error Node × State).1.isOk = true := by
    decide +kernel
  rcases @copy_from_reference_loads_and_stores plainEnv loopingMethod.method 3 _ _ _
    (integerCopied (.byRef Core.standard.int32)) _ (integerStored (.byRef Core.standard.int32))
    (.initial plainEnv .start) ⟨rfl, rfl, rfl⟩ ⟨rfl, rfl, rfl⟩ ⟨rfl, rfl, rfl⟩
    with ⟨e, hfailed, -⟩ | ⟨hreference, -⟩
  · rw [hfailed] at hanswers
    cases hanswers
  · exact ⟨hsource, hreference hsource⟩

/-- Whether a pointer is stored. -/
def storesPointer (n : Node) : Bool :=
  n.operands.getLast?.any fun value => (value.computedType Core.standard .empty).isPointer

/-- Copied from a pointer, the pointer is stored for the integer. From a reference, two levels are
enough to copy the integer, but not to load and store it. -/
theorem pointer_copied_for_integer :
    (((lowerUpTo plainEnv loopingMethod.method 4 (integerCopied (.pointer Core.standard.int32))).run
        (.initial plainEnv .start) : Except Error Node × State).1.toOption.map storesPointer)
      = some true
    ∧ (((lowerUpTo plainEnv loopingMethod.method 4
        (integerStored (.pointer Core.standard.int32))).run
        (.initial plainEnv .start) : Except Error Node × State).1.toOption.map storesPointer)
      = some false
    ∧ ((lowerUpTo plainEnv loopingMethod.method 2 (integerCopied (.byRef Core.standard.int32))).run
        (.initial plainEnv .start) : Except Error Node × State).1.isOk = true
    ∧ ((lowerUpTo plainEnv loopingMethod.method 2 (integerStored (.byRef Core.standard.int32))).run
        (.initial plainEnv .start) : Except Error Node × State).1.isOk = false := by
  decide +kernel

end ScriptLowering
