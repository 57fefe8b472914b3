import ScriptLowering.Proofs.Lowering.Criterion
import ScriptLowering.Proofs.Lowering.Run

/-!
# One level further down

Lowering an expression one level further down, with one level less to go, goes too deep or does the
same: it leaves the same state, one level further down (`Sinks`). Computations that do so can be put
in sequence, and the rules do nothing else with the lowering of subexpressions, so that every rule
sinks where the lowering of subexpressions does (`sinks_apply`). `Sinks` is a class for this reason:
its instances follow the text of the rules.
-/

namespace ScriptLowering.Lowering

open Script

/-- The same context one level further down. -/
abbrev Context.sunk (c : Context) : Context :=
  { c with depth := c.depth + 1 }

/-- The same state one level further down. -/
abbrev State.sunk (s : State) : State :=
  { s with context := s.context.sunk }

section Runs

variable {α β : Type} {x y : Lower α}

theorem run_oneLevelDown (s : State) :
    (Lower.oneLevelDown x).run s
      = if s.context.depth ≥ s.context.maxDepth then
          (.error (.recursionLimit s.context.maxDepth), s)
        else (Lower.thenRestore x Context.leave).run s.sunk := by
  have hrun : (Lower.oneLevelDown x).run s
      = ((do
          let c ← Lower.ofExcept s.context.enter
          Lower.modifyContext fun _ => c
          Lower.thenRestore x Context.leave : Lower α).run s) := rfl
  rw [hrun, Context.enter]
  split <;> rfl

theorem run_oneLevelDown_congr {s : State}
    (h : x.run s.sunk = y.run s.sunk) :
    (Lower.oneLevelDown x).run s = (Lower.oneLevelDown y).run s := by
  rw [run_oneLevelDown, run_oneLevelDown, run_thenRestore, run_thenRestore, h]

/-- A run that failed for going too deep. -/
def TooDeep (r : Except Error α × State) : Prop :=
  ∃ e, r.1 = .error e ∧ e.exceedsDepth = true

theorem TooDeep.bind {f : α → Lower β} {s : State} (h : TooDeep (x.run s)) :
    TooDeep ((x >>= f).run s) := by
  obtain ⟨e, hrun, he⟩ := h
  rw [run_bind_eq]
  rcases hx : x.run s with ⟨answer, s'⟩
  rw [hx] at hrun
  cases hrun
  exact ⟨e, rfl, he⟩

/-- A computation that does what another one does, unless it goes too deep. -/
def Echoes (x y : Lower α) : Prop :=
  ∀ s : State, TooDeep (x.run s)
    ∨ (x.run s : Except Error α × State) = (y.run s : Except Error α × State)

namespace Echoes

theorem refl (x : Lower α) : Echoes x x :=
  fun _ => .inr rfl

theorem bind {f f' : α → Lower β} (hx : Echoes x y) (hf : ∀ a, Echoes (f a) (f' a)) :
    Echoes (x >>= f) (y >>= f') := by
  intro s
  rcases hx s with hdeep | hsame
  · exact .inl hdeep.bind
  · rw [run_bind_eq, run_bind_eq, hsame]
    rcases (y.run s) with ⟨e | a, s'⟩
    · exact .inr rfl
    · exact hf a s'

theorem oneLevelDown (h : Echoes x y) : Echoes (Lower.oneLevelDown x) (Lower.oneLevelDown y) := by
  intro s
  rw [run_oneLevelDown, run_oneLevelDown]
  split
  · exact .inr rfl
  · rw [run_thenRestore, run_thenRestore]
    rcases h s.sunk with ⟨e, hdeep, he⟩ | hsame
    · exact .inl ⟨e, hdeep, he⟩
    · rw [hsame]
      exact .inr rfl

end Echoes

end Runs

/-- A computation that comes back to its level, and what stands for it one level further down: that
goes too deep, or does there what the computation does. -/
class Sinks {α : Type} (x y : Lower α) : Prop where
  depth : ∀ s : State, (x.run s : Except Error α × State).2.context.depth = s.context.depth
  run : ∀ s : State, TooDeep (y.run s.sunk)
    ∨ y.run s.sunk
      = ((x.run s : Except Error α × State).1, (x.run s : Except Error α × State).2.sunk)

namespace Sinks

variable {α β : Type} {x y : Lower α}

theorem same (h : ∀ s : State,
    (x.run s : Except Error α × State).2.context.depth = s.context.depth
    ∧ x.run s.sunk
      = ((x.run s : Except Error α × State).1, (x.run s : Except Error α × State).2.sunk)) :
    Sinks x x :=
  ⟨fun s => (h s).1, fun s => .inr (h s).2⟩

instance {a : α} : Sinks (pure a) (pure a) :=
  same fun _ => ⟨rfl, rfl⟩

instance {e : Error} : Sinks (throw e : Lower α) (throw e) :=
  same fun _ => ⟨rfl, rfl⟩

instance {r : Except Error α} : Sinks (Lower.ofExcept r) (Lower.ofExcept r) := by
  cases r <;> exact same fun _ => ⟨rfl, rfl⟩

instance bind {f f' : α → Lower β} [hx : Sinks x y] [hf : ∀ a, Sinks (f a) (f' a)] :
    Sinks (x >>= f) (y >>= f') where
  depth s := by
    rw [run_bind_eq, ← hx.depth s]
    rcases (x.run s) with ⟨e | a, s'⟩
    · rfl
    · exact (hf a).depth s'
  run s := by
    rcases hx.run s with hdeep | hrun
    · exact .inl hdeep.bind
    · rw [run_bind_eq, run_bind_eq, hrun]
      rcases (x.run s) with ⟨e | a, s'⟩
      · exact .inr rfl
      · exact (hf a).run s'

theorem andThen {f f' : α → Lower β} (hx : Sinks x y) (hf : ∀ a, Sinks (f a) (f' a)) :
    Sinks (x >>= f) (y >>= f') :=
  bind

/-- Of the context, all but the depth can be read. -/
instance (priority := high) context {f f' : Context → Lower β}
    [hf : ∀ c : Context, Sinks (f c) (f' c.sunk)] :
    Sinks (Lower.context >>= f) (Lower.context >>= f') :=
  ⟨fun s => (hf s.context).depth s, fun s => (hf s.context).run s⟩

instance {p : Prop} {d d' : Decidable p} {x' y' : Lower α} [Sinks x y] [Sinks x' y'] :
    Sinks (@ite _ p d x x') (@ite _ p d' y y') := by
  obtain rfl : d = d' := Subsingleton.elim d d'
  split <;> infer_instance

instance {f f' : β → Lower α} [hf : ∀ b, Sinks (f b) (f' b)] {bs : List β} :
    Sinks (Lower.each f bs) (Lower.each f' bs) := by
  induction bs <;> unfold Lower.each <;> infer_instance

instance {enabled : Bool} [hx : Sinks x y] :
    Sinks (Lower.withAutoCast enabled x) (Lower.withAutoCast enabled y) := by
  refine .andThen (same fun _ => ⟨rfl, rfl⟩) fun _ => ⟨hx.depth, fun s => ?_⟩
  rw [run_thenRestore, run_thenRestore]
  rcases hx.run s with ⟨e, hdeep, he⟩ | hsame
  · exact .inl ⟨e, hdeep, he⟩
  · rw [hsame]
    exact .inr rfl

theorem inlines (hx : Sinks x y) : Echoes (Lower.oneLevelDown y) x := by
  intro s
  rw [run_oneLevelDown]
  split
  · exact .inl ⟨_, rfl, rfl⟩
  · rw [run_thenRestore]
    rcases hx.run s with ⟨e, hdeep, he⟩ | hsame
    · exact .inl ⟨e, hdeep, he⟩
    · rw [hsame]
      exact .inr rfl

theorem oneLevelDown (hx : Sinks x y) : Sinks (Lower.oneLevelDown x) (Lower.oneLevelDown y) where
  depth s := by
    rw [run_oneLevelDown]
    split
    · rfl
    · rw [run_thenRestore]
      exact congrArg (· - 1) (hx.depth s.sunk)
  run s := by
    rw [run_oneLevelDown, run_oneLevelDown]
    split
    · exact .inl ⟨_, rfl, rfl⟩
    · next hdeeper =>
      have hlevel : ¬s.context.depth ≥ s.context.maxDepth := fun h => hdeeper (Nat.le_succ_of_le h)
      rw [if_neg hlevel, run_thenRestore, run_thenRestore]
      rcases hx.run s.sunk with ⟨e, hdeep, he⟩ | hsame
      · exact .inl ⟨e, hdeep, he⟩
      · -- There is a level to come back from.
        have hdepth := hx.depth s.sunk
        rw [hsame]
        refine .inr ?_
        simp only [Context.leave, hdepth, Nat.add_sub_cancel]

end Sinks

namespace Lowerer

/-- The same rules with another lowering of subexpressions. -/
abbrev withRaw (g : Lowerer) (raw : Cil.Expr → Lower Node) : Lowerer :=
  { g with raw }

variable {g : Lowerer} {raw : Cil.Expr → Lower Node} {e : Cil.Expr} {n m : Node} {t t' : Ty}
  {op : BinaryOp} {called : Method} {ns : List Node}

theorem core_withRaw : (g.withRaw raw).core = g.core :=
  rfl

/-! ### What lowers no subexpression -/

instance : Sinks (g.typeOf n) ((g.withRaw raw).typeOf n) :=
  .same fun _ => ⟨rfl, rfl⟩

instance : Sinks (g.location n) ((g.withRaw raw).location n) :=
  .same fun _ => ⟨rfl, rfl⟩

instance : Sinks (g.copy n) ((g.withRaw raw).copy n) :=
  .same fun _ => ⟨rfl, rfl⟩

instance : Sinks (g.coerce n t) ((g.withRaw raw).coerce n t) :=
  .same fun _ => ⟨rfl, rfl⟩

instance : Sinks (g.unsigned n) ((g.withRaw raw).unsigned n) :=
  .same fun _ => ⟨rfl, rfl⟩

instance {v : Variable} : Sinks (variableType v) (variableType v) :=
  .same fun _ => ⟨rfl, rfl⟩

instance {f : Table → Table} : Sinks (Lower.modifyTable f) (Lower.modifyTable f) :=
  .same fun _ => ⟨rfl, rfl⟩

instance : Sinks (Lower.newTemporary t) (Lower.newTemporary t) :=
  .same fun _ => ⟨rfl, rfl⟩

instance {concern : Concern} {message : String} :
    Sinks (g.warn e concern message) ((g.withRaw raw).warn e concern message) :=
  .same fun _ => ⟨rfl, rfl⟩

instance : Sinks (g.propertyOf? called) ((g.withRaw raw).propertyOf? called) :=
  .same fun _ => ⟨rfl, rfl⟩

instance : Sinks (g.methodDirective? called) ((g.withRaw raw).methodDirective? called) :=
  .same fun _ => ⟨rfl, rfl⟩

instance {f : Field} : Sinks (g.fieldDirective? f) ((g.withRaw raw).fieldDirective? f) :=
  .same fun _ => ⟨rfl, rfl⟩

instance : Sinks (g.ignores called) ((g.withRaw raw).ignores called) :=
  .same fun _ => ⟨rfl, rfl⟩

instance : Sinks (g.typeTarget t) ((g.withRaw raw).typeTarget t) :=
  .same fun _ => ⟨rfl, rfl⟩

instance : Sinks (g.accessTarget called n) ((g.withRaw raw).accessTarget called n) := by
  unfold accessTarget
  infer_instance

instance {i : Nat} : Sinks (argument e i) (argument e i) := by
  unfold argument
  split <;> infer_instance

instance : Sinks (variableOperand e) (variableOperand e) := by
  unfold variableOperand
  split <;> infer_instance

instance : Sinks (fieldOperand e) (fieldOperand e) := by
  unfold fieldOperand
  split <;> infer_instance

instance : Sinks (methodOperand e) (methodOperand e) := by
  unfold methodOperand
  split <;> infer_instance

instance : Sinks (typeOperand e) (typeOperand e) := by
  unfold typeOperand
  split <;> infer_instance

instance : Sinks (referentType e t) (referentType e t) := by
  unfold referentType
  split <;> infer_instance

instance {v : Cil.Variable} : Sinks (g.resolve v) ((g.withRaw raw).resolve v) := by
  unfold resolve
  infer_instance

instance : Sinks (g.compoundAssign op n m) ((g.withRaw raw).compoundAssign op n m) := by
  simp only [compoundAssign, core_withRaw]
  infer_instance

instance : Sinks (g.assign n m) ((g.withRaw raw).assign n m) := by
  simp only [assign, core_withRaw]
  infer_instance

instance {use : String} :
    Sinks (g.requireReference n use) ((g.withRaw raw).requireReference n use) := by
  unfold requireReference
  refine @Sinks.context _ _ _ fun c => ?_
  by_cases h : n.isReference g.core c.scope.retyping = true <;> simp only [core_withRaw, h] <;>
    infer_instance

instance : Sinks (g.hoistEach ns) ((g.withRaw raw).hoistEach ns) := by
  induction ns <;> unfold hoistEach <;> infer_instance

instance : Sinks (g.hoistIndices n) ((g.withRaw raw).hoistIndices n) := by
  unfold hoistIndices
  split <;> infer_instance

instance : Sinks (g.store n m) ((g.withRaw raw).store n m) := by
  unfold store
  refine @Sinks.context _ _ _ fun _ => ?_
  dsimp only [Context.scope]
  split <;> infer_instance

instance : Sinks (g.storeThrough n m t) ((g.withRaw raw).storeThrough n m t) := by
  unfold storeThrough
  refine .andThen inferInstance fun _ => ?_
  split
  · infer_instance
  · split <;> infer_instance

instance : Sinks (g.pointerOperation e op n m t t')
    ((g.withRaw raw).pointerOperation e op n m t t') := by
  simp only [pointerOperation, core_withRaw]
  split <;> infer_instance

instance : Sinks (g.numberOperation e op n m t t')
    ((g.withRaw raw).numberOperation e op n m t t') := by
  simp only [numberOperation, core_withRaw]
  split <;> infer_instance

instance : Sinks (g.propertyAccess? called n ns)
    ((g.withRaw raw).propertyAccess? called n ns) := by
  unfold propertyAccess?
  refine .andThen inferInstance fun _ => ?_
  split
  · infer_instance
  · split
    · infer_instance
    · split <;> infer_instance

instance : Sinks (g.constant e) ((g.withRaw raw).constant e) := by
  simp only [constant, core_withRaw]
  split <;> infer_instance

instance : Sinks (g.goto e) ((g.withRaw raw).goto e) := by
  unfold goto
  split <;> infer_instance

instance : Sinks (g.breakOut e) ((g.withRaw raw).breakOut e) := by
  unfold breakOut
  refine @Sinks.context _ _ _ fun c => ?_
  rw [show c.sunk.breakTarget? = c.breakTarget? from rfl]
  split <;> infer_instance

instance : Sinks (g.continueLoop e) ((g.withRaw raw).continueLoop e) := by
  unfold continueLoop
  refine @Sinks.context _ _ _ fun c => ?_
  rw [show c.sunk.continueTarget? = c.continueTarget? from rfl]
  split <;> infer_instance

instance : Sinks (g.earlyForm? n) ((g.withRaw raw).earlyForm? n) := by
  unfold earlyForm?
  infer_instance

instance {dispatch : Dispatch} : Sinks (g.accessorForm? called dispatch n ns)
    ((g.withRaw raw).accessorForm? called dispatch n ns) := by
  unfold accessorForm?
  infer_instance

instance {delta : Int64} : Sinks (g.incrementBy n t delta)
    ((g.withRaw raw).incrementBy n t delta) := by
  simp only [incrementBy, core_withRaw]
  infer_instance

instance : Sinks (g.liftOperand n) ((g.withRaw raw).liftOperand n) := by
  simp only [liftOperand, core_withRaw]
  infer_instance

mutual

theorem sinks_liftIn : ∀ n : Node, Sinks (g.liftIn n) ((g.withRaw raw).liftIn n)
  | ⟨form, operands⟩ => by
    have hoperands := sinks_liftInAll operands
    unfold liftIn
    split
    · infer_instance
    · infer_instance
    · split <;> infer_instance
    · infer_instance

theorem sinks_liftInAll : ∀ ns : List Node, Sinks (g.liftInAll ns) ((g.withRaw raw).liftInAll ns)
  | [] => by
    unfold liftInAll
    infer_instance
  | n :: rest => by
    have hn := sinks_liftIn n
    have hrest := sinks_liftInAll rest
    unfold liftInAll
    infer_instance

end

/-! ### What lowers subexpressions -/

section

variable [hraw : ∀ e, Sinks (g.raw e) (raw e)]

instance : Sinks (g.expression e) ((g.withRaw raw).expression e) := by
  unfold expression
  refine .andThen (hraw e) fun _ => ?_
  split <;> infer_instance

instance : Sinks (g.expecting e t) ((g.withRaw raw).expecting e t) :=
  .andThen (hraw e) inferInstance

instance : Sinks (g.condition e) ((g.withRaw raw).condition e) := by
  simp only [condition, core_withRaw]
  infer_instance

instance {f : Field} : Sinks (g.fieldTarget e f) ((g.withRaw raw).fieldTarget e f) := by
  simp only [fieldTarget, receiver]
  split <;> infer_instance

instance {stop : Nat} : Sinks (g.elementPlace e stop) ((g.withRaw raw).elementPlace e stop) := by
  unfold elementPlace
  refine .andThen inferInstance fun _ => .andThen inferInstance fun _ =>
    .andThen inferInstance fun _ => ?_
  split
  · infer_instance
  · split
    · infer_instance
    · refine .andThen inferInstance fun _ => ?_
      split <;> infer_instance

instance {text : String} :
    Sinks (g.replaced e called text) ((g.withRaw raw).replaced e called text) := by
  unfold replaced
  infer_instance

instance {ps : List MethodParameter} {es : List Cil.Expr} :
    Sinks (g.callArguments called ps es) ((g.withRaw raw).callArguments called ps es) := by
  induction es generalizing ps <;> cases ps <;> simp only [callArguments, callArgument] <;>
    infer_instance

instance {packs : Bool} :
    Sinks (g.invocation e called packs) ((g.withRaw raw).invocation e called packs) := by
  cases packs <;> simp only [invocation, callReceiver, Bool.false_eq_true, if_true, if_false] <;>
    split
  all_goals
    repeat refine .andThen inferInstance fun _ => ?_
    split
    · infer_instance
    · refine .andThen inferInstance fun _ => ?_
      split <;> infer_instance

instance : Sinks (g.call e) ((g.withRaw raw).call e) := by
  unfold call
  refine .andThen inferInstance fun _ => .andThen inferInstance fun _ => ?_
  split
  · infer_instance
  · refine .andThen inferInstance fun _ => ?_
    dsimp only
    split
    · infer_instance
    · split <;> infer_instance

instance : Sinks (g.newObject e) ((g.withRaw raw).newObject e) := by
  unfold newObject
  refine .andThen inferInstance fun _ => .andThen inferInstance fun _ => ?_
  split <;> infer_instance

instance : Sinks (g.binaryOperation e op) ((g.withRaw raw).binaryOperation e op) := by
  unfold binaryOperation
  refine .andThen inferInstance fun _ => .andThen inferInstance fun _ => ?_
  dsimp only
  split <;> infer_instance

instance {kind : Primitive} {checked : Bool} :
    Sinks (g.conversion e kind checked) ((g.withRaw raw).conversion e kind checked) := by
  simp only [conversion, core_withRaw]
  refine .andThen inferInstance fun _ => .andThen inferInstance fun _ => ?_
  split
  all_goals
    refine .andThen inferInstance fun _ => .andThen inferInstance fun _ => ?_
    split
    · infer_instance
    · split <;> infer_instance

instance : Sinks (g.compoundAssignment e) ((g.withRaw raw).compoundAssignment e) := by
  simp only [compoundAssignment]
  refine .andThen inferInstance fun _ => ?_
  split
  · infer_instance
  · refine .andThen inferInstance fun _ => ?_
    split <;> infer_instance

instance : Sinks (g.postIncrement e) ((g.withRaw raw).postIncrement e) := by
  simp only [postIncrement, receiver]
  split <;> infer_instance

instance : Sinks (g.nullableValue e) ((g.withRaw raw).nullableValue e) := by
  unfold nullableValue
  refine .andThen inferInstance fun _ => .andThen inferInstance fun _ =>
    .andThen inferInstance fun _ => ?_
  split <;> infer_instance

instance : Sinks (g.returnValue e) ((g.withRaw raw).returnValue e) := by
  unfold returnValue
  split <;> infer_instance

set_option synthInstance.maxSize 1024 in
theorem sinks_apply (rule : Rule) : Sinks (g.apply e rule) ((g.withRaw raw).apply e rule) := by
  have := @sinks_liftIn g raw
  cases rule <;> simp only [apply, sizeOf, loadLocal, storeLocal, localAddress, loadField,
    storeField, fieldAddress, newArray, initArray, arrayLength, loadElement, storeElement,
    elementAddress, loadIndirect, storeIndirect, initObject, copyObject, addressOf,
    unaryOperation, negation, connective, choice, uncast, comparison, typeCast,
    box, unbox, nullableWrap, liftedOperation, throwValue, methodPointer, virtualMethodPointer,
    unsupported, core_withRaw]
  all_goals infer_instance

end

theorem sinks_lowerUpTo {env : Env} {method : Method} : ∀ (n : Nat) (e : Cil.Expr),
    Sinks (lowerUpTo env method (n + 1) e) (lowerUpTo env method n e)
  | 0, e =>
    have hraw (e : Cil.Expr) : Sinks (lowerUpTo env method 0 e) (lowerUpTo env method 0 e) :=
      inferInstanceAs (Sinks (throw _) (throw _))
    have hdepth := (@sinks_apply ⟨env, method, lowerUpTo env method 0⟩ _ e hraw
      (ruleOf e.code)).oneLevelDown.depth
    ⟨hdepth, fun _ => .inl ⟨_, rfl, rfl⟩⟩
  | n + 1, e =>
    (@sinks_apply ⟨env, method, lowerUpTo env method (n + 1)⟩ _ e (sinks_lowerUpTo n)
      (ruleOf e.code)).oneLevelDown

/-- The rules for a method with a number of levels left for subexpressions. -/
abbrev upTo (env : Env) (method : Method) (n : Nat) : Lowerer :=
  ⟨env, method, lowerUpTo env method n⟩

theorem inlines_lowerUpTo {env : Env} {method : Method} (n : Nat) (e : Cil.Expr) :
    Echoes ((upTo env method n).raw e) ((upTo env method n).apply e (ruleOf e.code)) := by
  cases n with
  | zero => exact fun _ => .inl ⟨_, rfl, rfl⟩
  | succ n =>
    exact (@sinks_apply (upTo env method (n + 1)) _ e (sinks_lowerUpTo n) (ruleOf e.code)).inlines

end Lowerer

end ScriptLowering.Lowering
