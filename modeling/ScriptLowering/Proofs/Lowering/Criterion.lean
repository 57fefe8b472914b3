import ScriptLowering.Lowering.Rule
import ScriptLowering.Proofs.Cil.Part
import ScriptLowering.Proofs.Lowering.Vocabulary
import ScriptLowering.Proofs.Script.Tidy
import ScriptLowering.Proofs.Script.Validity

/-!
# Criteria for lowering

A `Criterion` says what is asked of the computations that lower a method and of the trees that they
make. `Criterion.Closed` lists what the rules of lowering rely on: how computations are combined,
what stays true while lowering goes on, and which trees may be made of which. A criterion that is
closed in this sense is met by every rule, which is proved once for all criteria, in the modules
that follow; nothing else about a rule is specific to a criterion.
-/

namespace ScriptLowering

/-- The failure of going too deep. -/
def Error.exceedsDepth : Error → Bool
  | recursionLimit _ => true
  | _ => false

namespace Script.Form

/-- The forms that may stand over any values. -/
def isGeneral : Form → Bool
  | unary op _ => !op.isMutating
  | binary op _ => !op.isAssignment
  | methodIdentifier _ | typeIdentifier _ | ternary _ | intrinsicCall _ _ | exactMultiply _
  | elementReference _ | pointerAdd _ | pointerDelta | pointerOffset | cast _ _ | changeType _
  | conversion _ _ _ | asCast _ | nullableWrap _ | fieldAccess _ | gotoLabel _ | returnValue
  | throwValue | rethrow | arrayLiteral _ | newArray _ _ | verbatim _ _ _ | ignoredMember _ _
  | empty => true
  | _ => false

/-- The forms that may stand over any operands of values. -/
def isLoose : Form → Bool
  | binary op _ => !op.isAssignment
  | pointerAdd _ | pointerRead _ _ | pointerWrite _ _ | asCast _ | typeTest _
  | elementAccess _ => true
  | _ => false

end Script.Form

namespace Lowering

open Script

/-- What a node designates: the location that a reference is made of or leads to, or itself. -/
inductive Located (c : Core) (r : Retyping) : Node → Node → Prop where
  | taken {os : List Node} : Located c r ⟨.takeReference, os⟩ (os.head?.getD .empty)
  | member {f : Field} {os : List Node} :
    Located c r ⟨.memberReference f, os⟩ (.fieldAccess f (os.head?.getD .empty))
  | element {t : Ty} {os : List Node} :
    Located c r ⟨.elementReference t, os⟩ (.elementAccess t (os.head?.getD .empty) os.tail)
  /-- A variable that was declared as a reference. -/
  | declared {v : Variable} {os : List Node} : v.isReference = true →
    Located c r ⟨.var v, os⟩ (.dereference ⟨.var v, os⟩)
  | slot {v : Variable} {os : List Node} : Located c r ⟨.var v, os⟩ ⟨.var v, os⟩
  | result {m : Method} {dispatch : Dispatch} {explicitThis : Bool} {os : List Node} :
    m.returnType.isByRef = true → Located c r ⟨.invocation m dispatch explicitThis, os⟩
      ⟨.resultDereference, [⟨.invocation m dispatch explicitThis, os⟩]⟩
  | referent {n : Node} : (n.computedType c r).isByRef = true → Located c r n (.dereference n)
  | itself {n : Node} : (n.computedType c r).isByRef = false → Located c r n n

theorem located_locationOf (c : Core) (r : Retyping) (n : Node) :
    Located c r n (locationOf c r n) := by
  obtain ⟨form, operands⟩ := n
  unfold locationOf
  split
  · next hform => subst hform; exact .taken
  · next hform => subst hform; exact .member
  · next hform => subst hform; exact .element
  · next v hform =>
    subst hform
    split
    · exact .slot
    · split
      · next hreference =>
        exact (Bool.or_eq_true_iff.mp hreference).elim .declared .referent
      · exact .slot
  · next hform =>
    subst hform
    split
    · next hresult => exact .result hresult
    · next hresult =>
      exact .itself (by simpa [Node.computedType, Form.typeRule] using hresult)
  · split
    · next hreference => exact .referent hreference
    · next hreference => exact .itself (Bool.eq_false_iff.mpr hreference)

/-- The convention for calls of a method. A call is static exactly if the method is, and then it has
no receiver. Arguments are passed by reference exactly to reference parameters. Receivers of value
types are passed explicitly, and so is the own receiver of a method that calls its base class, the
only calls that may do so. -/
structure Convention (m : Method) (dispatch : Dispatch) (explicitThis : Bool) (receiver : Node)
    (arguments : List Node) : Prop where
  static_iff : dispatch = .static ↔ m.isStatic = true
  empty : m.isStatic = true → receiver.isEmpty = true
  passing : ∀ (i : Nat) (a : Node) (p : MethodParameter), arguments[i]? = some a →
    m.parameters[i]? = some p → a.form.isPassing = p.type.isByRef
  explicit : m.isStatic = false → m.declaringType.isValueType = true → explicitThis = true
  base : dispatch = .base → explicitThis = true ∧ isOwnReceiver receiver = true

/-- What is asked of the computations that lower a method and of the trees that they make. -/
structure Criterion (g : Lowerer) where
  /-- The types and methods that trees may mention. -/
  lexicon : Lexicon g.env
  /-- What a computation does from a state: its answer satisfies a condition in the state
  afterwards. -/
  Meets : {α : Type} → Lower α → State → (State → α → Prop) → Prop
  /-- The states that a state leads to. -/
  Later : State → State → Prop
  /-- What holds of every state of the method. -/
  Fits : State → Prop
  /-- The expressions that may be lowered. -/
  Lowers : Cil.Expr → Prop
  /-- The expressions that a rule may be applied to. -/
  Applies : Cil.Expr → Prop
  /-- The values, which may rely on some temporaries. -/
  Value : State → List Variable → Node → Prop
  /-- The operands of values. -/
  Part : State → List Variable → Node → Prop
  /-- The arguments of calls. -/
  Passed : State → Node → Prop
  /-- The variables for those of the method body. -/
  Own : State → Variable → Prop
  Temporary : State → Variable → Prop
  /-- The properties that may be accessed. -/
  Accessed : Property → Prop
  /-- Calls have to follow the conventions of their methods. -/
  Strict : Prop

namespace Criterion

variable {g : Lowerer}

/-- A computation that yields a value. -/
abbrev Gives (C : Criterion g) (x : Lower Node) (s : State) : Prop :=
  C.Meets x s fun s' n => C.Value s' [] n

/-- The types that trees may mention. -/
abbrev types (C : Criterion g) : Ty → Prop :=
  C.lexicon.types

/-! ### What the rules rely on -/

/-- Computations can be combined. -/
structure Composes (C : Criterion g) : Prop where
  refl : ∀ s, C.Later s s
  trans {s₁ s₂ s₃ : State} : C.Later s₁ s₂ → C.Later s₂ s₃ → C.Later s₁ s₃
  pure {α : Type} {a : α} {s : State} {post : State → α → Prop} :
    post s a → C.Meets (Pure.pure a) s post
  throw {α : Type} {e : Error} {s : State} {post : State → α → Prop} :
    e.exceedsDepth = false → C.Meets (MonadExcept.throw e) s post
  bind {α β : Type} {x : Lower α} {f : α → Lower β} {s : State} {post : State → α → Prop}
      {post' : State → β → Prop} :
    C.Meets x s post → (∀ s' a, C.Later s s' → post s' a → C.Meets (f a) s' post') →
      C.Meets (x >>= f) s post'
  /-- What holds of every state may be used. -/
  fitting {α : Type} {x : Lower α} {s : State} {post : State → α → Prop} :
    (C.Fits s → C.Meets x s post) → C.Meets x s post
  /-- A computation that only reads the context answers at once. -/
  reading {α β : Type} {x : Lower α} {f : α → Lower β} {s : State} {post : State → β → Prop}
      (a : α) :
    (∀ session, (x.run ⟨s.context, session⟩ : Except Error α × State)
      = (.ok a, ⟨s.context, session⟩)) → C.Meets (f a) s post → C.Meets (x >>= f) s post
  withAutoCast {enabled : Bool} {x : Lower Node} {s : State} :
    (∀ s, C.Gives x s) → C.Gives (Lower.withAutoCast enabled x) s

/-- What is true of trees and variables stays true. -/
structure Lasts (C : Criterion g) : Prop where
  value_later {s s' : State} {vs : List Variable} {n : Node} :
    C.Later s s' → C.Value s vs n → C.Value s' vs n
  part_later {s s' : State} {vs : List Variable} {n : Node} :
    C.Later s s' → C.Part s vs n → C.Part s' vs n
  passed_later {s s' : State} {n : Node} : C.Later s s' → C.Passed s n → C.Passed s' n
  own_later {s s' : State} {v : Variable} : C.Later s s' → C.Own s v → C.Own s' v
  temporary_later {s s' : State} {v : Variable} :
    C.Later s s' → C.Temporary s v → C.Temporary s' v

/-- Expressions are lowered, variables are resolved and made, and types are known. -/
structure Runs (C : Criterion g) : Prop where
  raw {e : Cil.Expr} {s : State} : C.Lowers e → C.Gives (g.raw e) s
  lowers {e a : Cil.Expr} : C.Applies e → a ∈ e.arguments → C.Lowers a
  applies {e : Cil.Expr} : C.Lowers e → C.Applies e
  covers {e : Cil.Expr} : C.Applies e → C.lexicon.Covers e.mentions
  returns : C.types g.method.returnType
  resolve {e : Cil.Expr} {v : Cil.Variable} {s : State} :
    C.Applies e → e.var? = some v → C.Meets (g.resolve v) s C.Own
  retype {v : Variable} {t : Ty} {s : State} :
    C.Own s v → C.types t → t.isPackedArray = true → (s.context.scope.typeOf v).isArray = true →
      C.Meets (Lower.modifyTable (·.retype v t)) s fun _ _ => True
  newTemporary {t : Ty} {s : State} :
    C.types t → C.Meets (Lower.newTemporary t) s fun s' n =>
      ∃ v, C.Temporary s' v ∧ n = .ofVariable v
  variableType {s : State} {v : Variable} :
    C.Fits s → C.Own s v → C.types (s.context.scope.typeOf v)
  computedType {s : State} {vs : List Variable} {n : Node} :
    C.Fits s → C.Part s vs n → C.types (n.computedType g.core s.context.scope.retyping)
  methodDirective? {m : Method} {s : State} :
    C.lexicon.Knows (.method m) → C.Meets (g.methodDirective? m) s fun _ directive? =>
      C.lexicon.methods ((directive?.bind (·.proxy?)).getD m)
  asks {α : Type} {ask : MemberMemo → α × MemberMemo} {answer : α} {s : State} :
    MemberMemo.Asks g.env.directives ask answer → C.Meets (Lower.askMembers ask) s fun _ _ => True
  propertyOf? {m : Method} {s : State} :
    C.lexicon.methods m → C.Meets (g.propertyOf? m) s fun _ p? => ∀ p, p? = some p → C.Accessed p
  earlyForm? {n : Node} {s : State} :
    C.Value s [] n → C.Meets (g.earlyForm? n) s fun s' r? => ∀ r, r? = some r → C.Value s' [] r
  liftIn {n : Node} {t : Ty} {s : State} :
    C.Value s [] n → C.types t →
      C.Gives (g.liftIn n >>= fun r => Pure.pure (lifted g.core r.1 r.2 t)) s
  unsupported {e : Cil.Expr} {concern : Concern} {message description : String} {ns : List Node}
      {s : State} :
    (∀ n ∈ ns, C.Value s [] n) →
      C.Gives (g.warn e concern message >>= fun _ => Pure.pure (.unsupported description ns)) s

/-- Values are made of values and taken apart. -/
structure Makes (C : Criterion g) : Prop where
  part {s : State} {vs : List Variable} {n : Node} : C.Value s vs n → C.Part s vs n
  weaken {s : State} {vs : List Variable} {n : Node} : C.Value s [] n → C.Value s vs n
  weakenPart {s : State} {vs ws : List Variable} {n : Node} :
    C.Part s vs n → vs ⊆ ws → C.Part s ws n
  general {s : State} {vs : List Variable} {form : Form} {operands : List Node} :
    form.isGeneral = true → form.Takes operands.length → (∀ t ∈ form.types, C.types t) →
      (∀ o ∈ operands, C.Value s vs o) → C.Value s vs ⟨form, operands⟩
  loose {s : State} {vs : List Variable} {form : Form} {operands : List Node} :
    form.isLoose = true → form.Takes operands.length → (∀ t ∈ form.types, C.types t) →
      (∀ o ∈ operands, C.Part s vs o) → C.Value s vs ⟨form, operands⟩
  /-- What stands under a form that may stand over any operands. -/
  parts {s : State} {form : Form} {operands : List Node} :
    form.isLoose = true → C.Part s [] ⟨form, operands⟩ →
      (∀ t ∈ form.types, C.types t) ∧ ∀ o ∈ operands, C.Part s [] o
  literal {s : State} {vs : List Variable} {l : Literal} :
    l.isCanonical = true → (∀ t ∈ l.types, C.types t) → C.Value s vs (.literal l)
  /-- The amount of an increment, which is written as it stands. -/
  amount {s : State} {vs : List Variable} {e : Cil.Expr} {delta : Int64} {kind : Primitive} :
    C.Applies e → e.code = .postIncrement → incrementDelta? e.operand = some delta →
      delta ≠ 1 → delta ≠ -1 → kind.isIntegral = true → C.Value s vs (.integer g.core kind delta)
  own {s : State} {v : Variable} : C.Own s v → C.Value s [] (.ofVariable v)
  temporary {s : State} {vs : List Variable} {v : Variable} :
    C.Temporary s v → v ∈ vs → C.Value s vs (.ofVariable v)
  assignTemporary {s : State} {vs : List Variable} {v : Variable} {value : Node} {t : Ty} :
    C.Temporary s v → C.Part s vs value → C.types t →
      C.Value s vs (.binary .assign (.ofVariable v) value t)
  assignment {s : State} {vs : List Variable} {op : BinaryOp} {target value : Node} {t : Ty} :
    C.Part s vs target → C.Part s vs value → target.isLocation = true → C.types t →
      C.Value s vs (.binary op target value t)
  assignReferent {s : State} {address value : Node} {t : Ty} :
    C.Value s [] address → C.Value s [] value → C.types t →
      C.Value s [] (.binary .assign (.dereference address) value t)
  update {s : State} {vs : List Variable} {op : UnaryOp} {n : Node} {t : Ty} :
    C.Value s vs n → n.isLocation = true → C.types t → C.Value s vs (.unary op n t)
  afterPrelude {s : State} {vs : List Variable} {prelude : List Node} {n : Node} :
    (∀ p ∈ prelude, C.Value s vs p) → C.Value s (assignedVariables prelude ++ vs) n →
      C.Value s vs (afterPrelude prelude n)
  structCopy {s : State} {n : Node} : C.Value s [] n → C.Value s [] (.structCopy n)
  uncopied {s : State} {n : Node} : C.Value s [] n → C.Value s [] (Lowerer.uncopied n)
  takeReference {s : State} {vs : List Variable} {n : Node} :
    C.Value s vs n → n.isLocation = true → C.Value s vs ⟨.takeReference, [n]⟩
  locationOf {s : State} {n : Node} :
    C.Fits s → C.Value s [] n →
      C.Value s [] (Lowering.locationOf g.core s.context.scope.retyping n)
  memberReference {s : State} {f : Field} {n : Node} :
    C.Fits s → C.Value s [] n → (∀ t ∈ f.types, C.types t) →
      C.Value s []
        ⟨.memberReference f, [Lowering.locationOf g.core s.context.scope.retyping n]⟩
  staticReference {s : State} {f : Field} {directive? : Option TypeDirective} :
    (∀ t ∈ f.types, C.types t) → C.Value s []
      ⟨.memberReference f, [Lowerer.typeTargetUnder g.core directive? f.declaringType]⟩
  writeThrough {s : State} {address value : Node} :
    C.Value s [] address → C.Value s [] value → C.Value s [] ⟨.writeThrough, [address, value]⟩
  logicalNot {s : State} {n : Node} : C.Value s [] n → C.Value s [] (.logicalNot g.core n)
  nullableUnwrap {s : State} {n : Node} {t : Ty} :
    C.Value s [] n → C.types t → C.Value s [] ⟨.nullableUnwrap t, [n]⟩
  breakOut {s : State} {target? : Option Nat} :
    s.context.breakTarget? = some target? → C.Value s [] ⟨.breakOut target?, []⟩
  continueLoop {s : State} {index : Nat} :
    s.context.continueTarget? = some index → C.Value s [] ⟨.continueLoop (some index), []⟩

/-- Calls are made of values and arguments. -/
structure Calls (C : Criterion g) : Prop where
  passed {s : State} {n : Node} : C.Value s [] n → C.Passed s n
  plain {s : State} {n : Node} : C.Strict → C.Value s [] n → n.form.isPassing = false
  passByReference {s : State} {n : Node} :
    C.Value s [] n → n.isReference g.core s.context.scope.retyping = true →
      C.Passed s ⟨.passByReference, [n]⟩
  invocation {s : State} {m : Method} {dispatch : Dispatch} {explicitThis : Bool}
      {receiver : Node} {arguments : List Node} :
    (∀ t ∈ m.types, C.types t) →
      (C.Strict → Convention m dispatch explicitThis receiver arguments) →
      C.Value s [] receiver → (∀ a ∈ arguments, C.Passed s a) →
      C.Value s [] (.invocation m dispatch explicitThis receiver arguments)
  newObject {s : State} {m : Method} {arguments : List Node} :
    (∀ t ∈ m.types, C.types t) → (∀ a ∈ arguments, C.Passed s a) →
      C.Value s [] ⟨.newObject m m.declaringType, arguments⟩
  propertyAccess {s : State} {p : Property} {target : Node} {indices : List Node} :
    C.Accessed p → C.Value s [] target → (∀ a ∈ indices, C.Passed s a) →
      C.Value s [] (.propertyAccess p target indices)
  assignPassed {s : State} {target value : Node} {t : Ty} :
    C.Value s [] target → C.Passed s value → target.isLocation = true → C.types t →
      C.Value s [] (.binary .assign target value t)

/-- A criterion that the rules of lowering meet. -/
structure Closed (C : Criterion g) : Prop extends Composes C, Lasts C, Runs C, Makes C, Calls C

variable {C : Criterion g}

/-! ### Combining computations -/

/-- A choice between two computations. -/
theorem Meets.ite {α : Type} {p : Prop} [Decidable p] {x y : Lower α} {s : State}
    {post : State → α → Prop} (hx : p → C.Meets x s post) (hy : ¬p → C.Meets y s post) :
    C.Meets (if p then x else y) s post := by
  split
  · exact hx ‹p›
  · exact hy ‹¬p›

namespace Composes

variable (hC : C.Composes) {α β : Type} {s : State}
include hC

/-- What follows a failure does not matter. -/
theorem failing {e : Error} (he : e.exceedsDepth = false) {f : α → Lower β}
    {post : State → β → Prop} :
    C.Meets ((MonadExcept.throw e : Lower α) >>= f) s post := by
  have hthrow : C.Meets (MonadExcept.throw e : Lower α) s fun _ _ => False := hC.throw he
  exact hC.bind hthrow fun _ _ _ hfalse => hfalse.elim

variable {post : State → α → Prop}

theorem mono {x : Lower α} {post' : State → α → Prop} (hx : C.Meets x s post)
    (h : ∀ s' a, C.Later s s' → post s' a → post' s' a) : C.Meets x s post' := by
  have hbind := hC.bind hx fun s' a hlater ha => hC.pure (h s' a hlater ha)
  rwa [bind_pure] at hbind

theorem ofExcept {x : Except Error α} (hx : ∀ e, x = .error e → e.exceedsDepth = false)
    (h : ∀ a, x = .ok a → post s a) : C.Meets (Lower.ofExcept x) s post := by
  cases x with
  | error e => exact hC.throw (hx e rfl)
  | ok a => exact hC.pure (h a rfl)

/-- A checked node, if it is made at all. -/
theorem make {form : Form} {operands : List Node} {post : State → Node → Prop}
    (h : post s ⟨form, operands⟩) :
    C.Meets (Lower.ofExcept (Node.make form operands)) s post := by
  refine hC.ofExcept (fun e he => ?_) fun n hn => ?_
  · unfold Node.make Form.checkCount Form.checkLeast Form.checkWrapper at he
    repeat' split at he
    all_goals
      cases he
      try rfl
  · unfold Node.make at hn
    cases hcount : form.checkCount operands.length <;> rw [hcount] at hn
    · cases hn
    · cases hleast : form.checkLeast operands.length <;> rw [hleast] at hn
      · cases hn
      · cases hwrapper : form.checkWrapper operands.head? <;> rw [hwrapper] at hn <;> cases hn
        exact h

theorem each {f : α → Lower β} {post : State → β → Prop}
    (hpost : ∀ s s' b, C.Later s s' → post s b → post s' b) :
    ∀ {as : List α} {s : State}, (∀ a ∈ as, ∀ s, C.Meets (f a) s post) →
      C.Meets (Lower.each f as) s fun s' bs => bs.length = as.length ∧ ∀ b ∈ bs, post s' b
  | [], _, _ => hC.pure ⟨rfl, by simp⟩
  | a :: rest, s, hf => by
    refine hC.bind (hf a List.mem_cons_self s) fun s₁ b _ hb => ?_
    refine hC.bind (each hpost fun a ha => hf a (List.mem_cons_of_mem _ ha)) fun s₂ bs h₂ hbs => ?_
    refine hC.pure ⟨by simp [hbs.1], List.forall_mem_cons.mpr ⟨?_, hbs.2⟩⟩
    exact hpost s₁ s₂ b h₂ hb

theorem requireReference {n : Node} {use : String} {f : Node → Lower α}
    (hf : n.isReference g.core s.context.scope.retyping = true → C.Meets (f n) s post) :
    C.Meets (g.requireReference n use >>= f) s post := by
  have hreads : g.requireReference n use >>= f = Lower.context >>= fun c =>
      if n.isReference g.core c.scope.retyping then f n
      else MonadExcept.throw (.referenceRequired use n) >>= f := by
    unfold Lowerer.requireReference
    rw [bind_assoc]
    congr 1
    funext c
    split
    · rw [pure_bind]
    · rfl
  rw [hreads]
  exact hC.reading _ (fun _ => rfl) (.ite (fun href => hf href) fun _ => hC.failing rfl)

end Composes

namespace Closed

variable (hC : C.Closed) {α : Type} {s : State} {vs : List Variable} {e : Cil.Expr} {n : Node}
include hC

/-! ### Parts of an expression -/

section

variable {post : State → α → Prop}

section

variable (he : C.Applies e)
include he

theorem argument {index : Nat} {f : Cil.Expr → Lower α}
    (hf : ∀ a, C.Lowers a → C.Meets (f a) s post) :
    C.Meets (Lowerer.argument e index >>= f) s post := by
  unfold Lowerer.argument
  split
  · next a ha =>
    exact hC.reading a (fun _ => rfl) (hf a (hC.lowers he (List.mem_of_getElem? ha)))
  · exact hC.failing rfl

/-- An argument that is lowered at once. -/
theorem operand {β : Type} {index : Nat} {x : Cil.Expr → Lower β} {f : β → Lower α}
    {mid : State → β → Prop} (hx : ∀ {a}, C.Lowers a → C.Meets (x a) s mid)
    (hf : ∀ s' b, C.Later s s' → mid s' b → C.Meets (f b) s' post) :
    C.Meets (do f (← x (← Lowerer.argument e index))) s post :=
  hC.argument he fun _ ha => hC.bind (hx ha) hf

/-- The variable operand, resolved. -/
theorem ownVariable {f : Variable → Lower α} (hf : ∀ s' v, C.Own s' v → C.Meets (f v) s' post) :
    C.Meets (do f (← g.resolve (← Lowerer.variableOperand e))) s post := by
  unfold Lowerer.variableOperand
  split
  · next v hv =>
    refine hC.reading v (fun _ => rfl) ?_
    exact hC.bind (hC.resolve he hv) fun s' w _ hw => hf s' w hw
  · exact hC.failing rfl

theorem fieldOperand {f : Field → Lower α}
    (hf : ∀ field : Field, (∀ t ∈ field.types, C.types t) → C.Meets (f field) s post) :
    C.Meets (Lowerer.fieldOperand e >>= f) s post := by
  unfold Lowerer.fieldOperand Cil.Expr.field?
  cases hoperand : e.operand with
  | field field =>
    exact hC.reading field (fun _ => rfl) (hf field ((hC.covers he).field hoperand))
  | _ => exact hC.failing rfl

theorem methodOperand {f : Method → Lower α}
    (hf : ∀ m, C.lexicon.Knows (.method m) → C.Meets (f m) s post) :
    C.Meets (Lowerer.methodOperand e >>= f) s post := by
  unfold Lowerer.methodOperand Cil.Expr.method?
  cases hoperand : e.operand with
  | method m => exact hC.reading m (fun _ => rfl) (hf m ((hC.covers he).method hoperand))
  | _ => exact hC.failing rfl

/-- A type operand is of the lexicon. -/
theorem types_type? {t : Ty} (ht : e.type? = some t) : C.types t :=
  (hC.covers he).type (Cil.Expr.operand_of_type? ht)

theorem typeOperand {f : Ty → Lower α} (hf : ∀ t, C.types t → C.Meets (f t) s post) :
    C.Meets (Lowerer.typeOperand e >>= f) s post := by
  unfold Lowerer.typeOperand
  split
  · next t ht => exact hC.reading t (fun _ => rfl) (hf t (hC.types_type? he ht))
  · exact hC.failing rfl

end

/-! ### Types and assignments -/

theorem typeOf (hn : C.Part s vs n) {f : Ty → Lower α}
    (hf : ∀ t, C.types t → C.Meets (f t) s post) : C.Meets (g.typeOf n >>= f) s post :=
  hC.fitting fun hs => hC.reading _ (fun _ => rfl) (hf _ (hC.computedType hs hn))

end

theorem compoundAssign {op : BinaryOp} {target value : Node} {post : State → Node → Prop}
    (htype : C.Fits s → C.types (target.computedType g.core s.context.scope.retyping))
    (h : ∀ t, C.types t → target.isLocation = true → post s (.binary op target value t)) :
    C.Meets (g.compoundAssign op target value) s post := by
  refine hC.fitting fun hs => hC.reading _ (fun _ => rfl) (hC.ofExcept (fun e he => ?_) ?_)
  · unfold Node.compoundAssign at he
    repeat' split at he
    all_goals
      cases he
      try rfl
  · intro n hn
    obtain ⟨hlocation, rfl⟩ := Node.eq_of_compoundAssign hn
    exact h _ (htype hs) hlocation

theorem eachValue {f : α → Lower Node} {as : List α} (hf : ∀ a ∈ as, ∀ s, C.Gives (f a) s) :
    C.Meets (Lower.each f as) s fun s' ns =>
      ns.length = as.length ∧ ∀ n ∈ ns, C.Value s' [] n := by
  refine hC.each ?_ hf
  exact fun _ _ _ h hn => hC.value_later h hn

end Closed

end Criterion

end Lowering

end ScriptLowering
