import ScriptLowering.Lowering.Method
import ScriptLowering.Proofs.Packing.Address
import ScriptLowering.Proofs.Packing.Invocation
import ScriptLowering.Proofs.Packing.Operation

/-!
# Methods with packed arrays

Every rule keeps two runs in step, so lowering an expression does, by induction on the levels
(`inStep_upTo`). Statements follow by induction on their structure. A method body in which packed
arrays do no harm and that is lowered without them is lowered with them (`lower_of_unpacked`).
-/

namespace ScriptLowering

open Script Lowering

namespace Lowering

variable {env : Env} {S : Setting env} {w : Ledger} {p : Pair env}

/-! ### Expressions -/

theorem ne_logicalNot_of_ruleOf {code : Cil.Opcode} {op : UnaryOp} (h : ruleOf code = .unary op) :
    op ≠ .logicalNot := by
  unfold ruleOf at h
  split at h
  · cases h
  · cases h
  · cases h
  · unfold plainRule at h
    split at h <;> cases h <;> exact UnaryOp.noConfusion

theorem Pair.InStep.apply (hp : p.InStep S) {e : Cil.Expr} (he : S.Admits e) (w : Ledger) :
    Couples S w (p.left.apply e (ruleOf e.code)) (p.right.apply e (ruleOf e.code))
      (Twins S (loadsPacked env.directives e)) := by
  have htakes := he.takesPacked
  unfold takesPacked at htakes
  rw [loadsPacked_eq]
  cases hrule : ruleOf e.code with
  | nothing => exact .pure (Twin.same S.L.void rfl)
  | constant => exact constant he
  | sizeOf => exact sizeOf he
  | loadLocal => exact loadLocal he
  | storeLocal => exact hp.storeLocal he
  | localAddress => exact localAddress he
  | loadField =>
    have hflag : (Rule.loadField.passesThrough && someLoadsPacked env.directives e.arguments)
        = false := rfl
    rw [hflag, Bool.or_false]
    exact hp.loadField he
  | storeField => exact hp.storeField he
  | fieldAddress => exact hp.fieldAddress he
  | newArray => exact hp.newArray he
  | initArray => exact hp.initArray he
  | arrayLength => exact hp.arrayLength he
  | loadElement =>
    rw [hrule] at htakes
    exact hp.loadElement he htakes
  | storeElement =>
    rw [hrule] at htakes
    exact hp.storeElement he htakes
  | elementAddress =>
    rw [hrule] at htakes
    exact hp.elementAddress he htakes
  | loadIndirect => exact hp.loadIndirect he
  | storeIndirect =>
    rw [hrule] at htakes
    exact hp.storeIndirect he htakes
  | initObject => exact hp.initObject he
  | copyObject => exact hp.copyObject he
  | addressOf =>
    rw [hrule] at htakes
    exact hp.addressOf he ((Bool.not_eq_true' _).mp htakes)
  | binary op => exact hp.binaryOperation he
  | unary op => exact hp.unaryOperation he (ne_logicalNot_of_ruleOf hrule)
  | negation => exact hp.negation he
  | connective op => exact hp.connective he
  | choice => exact hp.choice he
  | compoundAssignment =>
    rw [hrule] at htakes
    refine hp.compoundAssignment he fun operation hmem => ?_
    exact (Bool.not_eq_true' _).mp (List.all_eq_true.mp htakes operation hmem)
  | postIncrement =>
    rw [hrule] at htakes
    exact hp.postIncrement he ((Bool.not_eq_true' _).mp htakes)
  | comparison op unsigned => exact hp.comparison he
  | conversion kind checked => exact hp.conversion he
  | newObject => exact hp.newObject he
  | call =>
    rw [hrule] at htakes
    refine hp.call he fun hearly m hm => ?_
    have hinside := (Bool.or_eq_true_iff.mp htakes).resolve_left (by simp [hearly])
    rw [hm] at hinside
    exact (Bool.not_eq_true' _).mp hinside
  | methodPointer => exact methodPointer (p := p) he
  | virtualMethodPointer => exact hp.virtualMethodPointer he
  | typeCast tries => exact hp.typeCast he
  | box => exact hp.box he
  | unbox => exact hp.unbox he
  | nullableWrap => exact hp.nullableWrap he
  | nullableValue => exact hp.nullableValue he
  | liftedOperation => exact hp.liftedOperation he
  | goto => exact goto (p := p)
  | breakOut => exact breakOut (p := p)
  | continueLoop => exact continueLoop (p := p)
  | returnValue => exact hp.returnValue he
  | throwValue => exact hp.throwValue he
  | rethrow => exact .pure (Twin.same S.L.void rfl)
  | argument =>
    refine .argument he fun a hmem ha => ?_
    refine (hp.expression ha w).mono fun _ _ _ _ h => h.loosen fun hloads => ?_
    exact someLoadsPacked_of_mem hmem hloads
  | unsupported => exact hp.unsupported he

/-- The rules without packed arrays and with them, up to a number of levels. -/
def Pair.upTo (env : Env) (method : Method) (n : Nat) : Pair env :=
  ⟨method, lowerUpTo env.unpacked method n, lowerUpTo env method n⟩

theorem inStep_upTo {method : Method} (hreturns : S.L.types method.returnType) :
    ∀ n, (Pair.upTo env method n).InStep S
  | 0 => ⟨fun _ _ => .throw, hreturns⟩
  | n + 1 => ⟨fun he _ => .oneLevelDown fun w => (inStep_upTo hreturns n).apply he w, hreturns⟩

/-! ### Parts of a method body -/

namespace Setting

variable {mentions mentions' : List Cil.Mention} {parts parts' : List Cil.Part}

theorem accepts_append :
    S.Accepts (mentions ++ mentions') (parts ++ parts')
      ↔ S.Accepts mentions parts ∧ S.Accepts mentions' parts' := by
  constructor
  · rintro ⟨hcovers, hparts⟩
    obtain ⟨hcovers, hcovers'⟩ := S.L.covers_append.mp hcovers
    obtain ⟨hparts, hparts'⟩ := List.forall_mem_append.mp hparts
    exact ⟨⟨hcovers, hparts⟩, ⟨hcovers', hparts'⟩⟩
  · rintro ⟨h, h'⟩
    exact ⟨S.L.covers_append.mpr ⟨h.covers, h'.covers⟩,
      List.forall_mem_append.mpr ⟨h.parts, h'.parts⟩⟩

theorem Accepts.of_mem {α : Type} {f : α → List Cil.Mention} {g : α → List Cil.Part} {as : List α}
    (h : S.Accepts (as.flatMap f) (as.flatMap g)) {a : α} (ha : a ∈ as) : S.Accepts (f a) (g a) := by
  refine ⟨S.L.covers_flatMap.mp h.covers a ha, fun x hx => h.parts x ?_⟩
  exact List.mem_flatMap.mpr ⟨a, ha, hx⟩

theorem Accepts.meets {v : Cil.Variable} (h : S.Accepts v.mentions v.parts) : S.Meets v :=
  ⟨h.parts _ List.mem_cons_self, S.L.covers_variable.mp h.covers⟩

end Setting

/-! ### Statements -/

/-- Runs that stay in step, whatever they answer. -/
abbrev KeepsStep {α β : Type} (S : Setting env) (x : Lower α) (y : Lower β) : Prop :=
  ∀ w, Couples S w x y fun _ _ _ => True

theorem couples_newLoop :
    Couples S w Lowerer.newLoop Lowerer.newLoop (fun _ index index' => index = index') := by
  intro s s' hs a t hrun
  cases hrun
  have hnext : s.context.nextLoop = s'.context.nextLoop := by
    rw [hs.context.rest]
  refine ⟨_, _, w, rfl, .refl w, ⟨?_, hs.members⟩, hnext⟩
  exact hs.context.map (f := fun c => { c with nextLoop := c.nextLoop + 1 }) fun _ _ => rfl

namespace Pair

theorem newCaught : KeepsStep S p.left.newCaught p.right.newCaught := by
  intro w
  refine Still.context.bind fun c c' hc => ?_
  obtain ⟨w', hle, htable, -, -⟩ := hc.table.newTemporary env.core.exception env.core.exception
  exact (Couples.setTable hle htable).bind fun _ _ _ _ _ => .pure trivial

/-- An assignment to a variable. -/
theorem assignVariable {v v' : Variable} (h : TwinVariables S.L w v v') {value value' : Node} :
    Still S w (p.left.assign (.ofVariable v) value) (p.right.assign (.ofVariable v') value')
      (PlainTwins S.L w) :=
  Pair.assign (fun _ => rfl) h.typedAlike

theorem bindCaught {v? : Option Cil.Variable} (hv : ∀ v ∈ v?, S.Meets v)
    {caught caught' : Variable} :
    KeepsStep S (p.left.bindCaught caught v?) (p.right.bindCaught caught' v?) := by
  intro w
  cases v? with
  | none => exact .pure trivial
  | some u =>
    refine (Pair.resolve (hv u rfl)).bind fun w₁ v v' _ h => ?_
    refine (Pair.variableType h).bind fun t t' _ => ?_
    exact (Pair.assignVariable h).bind fun _ _ _ => .pure trivial

theorem handler {isMissing : Bool} {f f' : Variable → Lower (List (Ty × Node))}
    (h : ∀ caught caught', KeepsStep S (f caught) (f' caught')) :
    KeepsStep S (p.left.handler isMissing f) (p.right.handler isMissing f') := by
  intro w
  refine .ite Iff.rfl (fun _ => .pure trivial) fun _ => ?_
  refine (newCaught w).bind fun w₁ caught caught' _ _ => ?_
  exact (h caught caught' w₁).bind fun _ _ _ _ _ => .pure trivial

namespace InStep

theorem loopCondition (hp : p.InStep S) {e? : Option Cil.Expr} (he : ∀ e ∈ e?, S.Admits e) :
    KeepsStep S (p.left.loopCondition e?) (p.right.loopCondition e?) := by
  intro w
  cases e? with
  | none => exact .pure trivial
  | some e => exact (hp.condition (he e rfl) w).forget

theorem pin (hp : p.InStep S) {x : Cil.Variable × Cil.Expr} (hv : S.Meets x.1)
    (he : S.Admits x.2) : KeepsStep S (p.left.pin x) (p.right.pin x) := by
  intro w
  refine (Pair.resolve hv).bind fun w₁ v v' _ hvariables => ?_
  refine (hp.raw he w₁).bind fun w₂ l r hle h => ?_
  refine (Pair.requireReference h).bind fun _ _ _ => ?_
  exact (Pair.assignVariable (hvariables.later hle)).bind fun _ _ _ => .pure trivial

mutual

theorem item (hp : p.InStep S) : ∀ stmt : Cil.Stmt, S.Accepts stmt.mentions stmt.parts →
    KeepsStep S (p.left.item stmt) (p.right.item stmt)
  | .expression e, h, w => by
    unfold Cil.Stmt.mentions Cil.Stmt.parts at h
    unfold Lowerer.item
    exact (hp.expression h w).bind fun _ _ _ _ _ => .pure trivial
  | .label name, _, w => by
    unfold Lowerer.item
    exact .pure trivial
  | .block body, h, w => by
    unfold Cil.Stmt.mentions Cil.Stmt.parts at h
    unfold Lowerer.item
    exact (items hp body h w).bind fun _ _ _ _ _ => .pure trivial
  | .condition condition whenTrue whenFalse?, h, w => by
    unfold Cil.Stmt.mentions Cil.Stmt.parts at h
    obtain ⟨h, hfalse⟩ := Setting.accepts_append.mp h
    obtain ⟨hcondition, htrue⟩ := Setting.accepts_append.mp h
    unfold Lowerer.item
    refine (hp.condition hcondition w).bind fun w₁ _ _ _ _ => ?_
    refine (items hp whenTrue htrue w₁).bind fun w₂ _ _ _ _ => ?_
    exact (optionalBlock hp whenFalse? hfalse w₂).bind fun _ _ _ _ _ => .pure trivial
  | .loop condition? body, h, w => by
    unfold Cil.Stmt.mentions Cil.Stmt.parts at h
    obtain ⟨hcondition, hbody⟩ := Setting.accepts_append.mp h
    have hadmits : ∀ e ∈ condition?, S.Admits e :=
      fun e he => hcondition.of_mem (Option.mem_toList.mpr he)
    unfold Lowerer.item
    refine (hp.loopCondition hadmits w).bind fun w₁ _ _ _ _ => ?_
    refine couples_newLoop.bind ?_
    rintro w₂ index _ - rfl
    exact (Couples.withTarget (items hp body hbody)).bind fun _ _ _ _ _ => .pure trivial
  | .switch scrutinee cs, h, w => by
    unfold Cil.Stmt.mentions Cil.Stmt.parts at h
    obtain ⟨hscrutinee, hcases⟩ := Setting.accepts_append.mp h
    unfold Lowerer.item
    refine (hp.expression hscrutinee w).bind fun w₁ _ _ _ _ => ?_
    exact (Couples.withTarget (InStep.cases hp cs hcases)).bind fun _ _ _ _ _ => .pure trivial
  | .guarded body hs finally? fault?, h, w => by
    unfold Cil.Stmt.mentions Cil.Stmt.parts at h
    obtain ⟨h, hfault⟩ := Setting.accepts_append.mp h
    obtain ⟨h, hfinally⟩ := Setting.accepts_append.mp h
    obtain ⟨hbody, hhandlers⟩ := Setting.accepts_append.mp h
    unfold Lowerer.item
    refine Couples.withTarget fun w => ?_
    refine (items hp body hbody w).bind fun w₁ _ _ _ _ => ?_
    refine (handler (InStep.handlers hp hs hhandlers) w₁).bind fun w₂ _ _ _ _ => ?_
    refine (optionalBlock hp finally? hfinally w₂).bind fun w₃ _ _ _ _ => ?_
    exact (optionalBlock hp fault? hfault w₃).bind fun _ _ _ _ _ => .pure trivial
  | .fixed pins body, h, w => by
    unfold Cil.Stmt.mentions Cil.Stmt.parts at h
    obtain ⟨hpins, hbody⟩ := Setting.accepts_append.mp h
    unfold Lowerer.item
    refine (Couples.each fun x hx => ?_).bind fun w₁ _ _ _ _ => ?_
    · obtain ⟨hvariable, hreference⟩ := Setting.accepts_append.mp (hpins.of_mem hx)
      exact hp.pin hvariable.meets hreference
    · exact (items hp body hbody w₁).bind fun _ _ _ _ _ => .pure trivial

theorem items (hp : p.InStep S) : ∀ body : List Cil.Stmt,
    S.Accepts (Cil.Stmt.mentionsList body) (Cil.Stmt.partsList body) →
    KeepsStep S (p.left.items body) (p.right.items body)
  | [], _, w => by
    unfold Lowerer.items
    exact .pure trivial
  | stmt :: rest, h, w => by
    unfold Cil.Stmt.mentionsList Cil.Stmt.partsList at h
    obtain ⟨hstmt, hrest⟩ := Setting.accepts_append.mp h
    unfold Lowerer.items
    refine (item hp stmt hstmt w).bind fun w₁ _ _ _ _ => ?_
    exact (items hp rest hrest w₁).bind fun _ _ _ _ _ => .pure trivial

theorem optionalBlock (hp : p.InStep S) : ∀ body? : Option (List Cil.Stmt),
    S.Accepts (Cil.Stmt.mentionsOption body?) (Cil.Stmt.partsOption body?) →
    KeepsStep S (p.left.optionalBlock body?) (p.right.optionalBlock body?)
  | none, _, w => by
    unfold Lowerer.optionalBlock
    exact .pure trivial
  | some body, h, w => by
    unfold Cil.Stmt.mentionsOption Cil.Stmt.partsOption at h
    unfold Lowerer.optionalBlock
    exact (items hp body h w).bind fun _ _ _ _ _ => .pure trivial

theorem cases (hp : p.InStep S) : ∀ cs : List Cil.Case,
    S.Accepts (Cil.Case.mentionsList cs) (Cil.Case.partsList cs) →
    KeepsStep S (p.left.cases cs) (p.right.cases cs)
  | [], _, w => by
    unfold Lowerer.cases
    exact .pure trivial
  | .mk values body :: rest, h, w => by
    unfold Cil.Case.mentionsList Cil.Case.partsList at h
    obtain ⟨hbody, hrest⟩ := Setting.accepts_append.mp h
    unfold Lowerer.cases
    refine (items hp body hbody w).bind fun w₁ _ _ _ _ => ?_
    exact (cases hp rest hrest w₁).bind fun _ _ _ _ _ => .pure trivial

theorem handlers (hp : p.InStep S) : ∀ hs : List Cil.Handler,
    S.Accepts (Cil.Handler.mentionsList hs) (Cil.Handler.partsList hs) →
    ∀ caught caught', KeepsStep S (p.left.handlers caught hs) (p.right.handlers caught' hs)
  | [], _, _, _, w => by
    unfold Lowerer.handlers
    exact .pure trivial
  | .mk type var? body :: rest, h, caught, caught', w => by
    unfold Cil.Handler.mentionsList Cil.Handler.partsList at h
    obtain ⟨h, hrest⟩ := Setting.accepts_append.mp h
    -- The type of the exception is mentioned, and is no part.
    have hinner : S.Accepts (var?.toList.flatMap Cil.Variable.mentions ++ Cil.Stmt.mentionsList body)
        (var?.toList.flatMap Cil.Variable.parts ++ Cil.Stmt.partsList body) :=
      ⟨(S.L.covers_cons.mp h.covers).2, h.parts⟩
    obtain ⟨hvar, hbody⟩ := Setting.accepts_append.mp hinner
    have hmeets : ∀ v ∈ var?, S.Meets v :=
      fun v hv => (hvar.of_mem (Option.mem_toList.mpr hv)).meets
    unfold Lowerer.handlers
    refine (bindCaught hmeets w).bind fun w₁ _ _ _ _ => ?_
    refine (items hp body hbody w₁).bind fun w₂ _ _ _ _ => ?_
    exact (handlers hp rest hrest caught caught' w₂).bind fun _ _ _ _ _ => .pure trivial

end

theorem statements (hp : p.InStep S) {body : List Cil.Stmt}
    (h : S.Accepts (Cil.Stmt.mentionsList body) (Cil.Stmt.partsList body)) :
    KeepsStep S (p.left.statements body) (p.right.statements body) :=
  fun w => (hp.items body h w).bind fun _ _ _ _ _ => .pure trivial

end InStep

end Pair

/-! ### Methods -/

/-- The types and variables of a method body in which packed arrays do no harm. -/
def settingOf {body : Cil.MethodBody} (h : PackingSafe env body) : Setting env where
  L := arising env [body]
  vars v := .variable v ∈ body.parts
  unreserved := h.unreserved _
  receiver := h.receiver _
  consistent := h.consistent _ _
  plain := h.plain _

theorem settingOf_accepts {body : Cil.MethodBody} (h : PackingSafe env body) :
    (settingOf h).Accepts body.mentions body.parts := by
  refine ⟨arising_covers List.mem_cons_self, fun x hx => ?_⟩
  cases x with
  | «variable» v => exact hx
  | expression e => exact h.instructions e hx

theorem keepsStep_lowerBody {body : Cil.MethodBody} (h : PackingSafe env body) :
    KeepsStep (settingOf h) (lowerBody env.unpacked body) (lowerBody env body) := by
  intro w
  obtain ⟨hcovers, hparts⟩ := settingOf_accepts h
  unfold Cil.MethodBody.mentions at hcovers
  rw [List.append_assoc, Lexicon.covers_append, Lexicon.covers_types] at hcovers
  obtain ⟨hsignature, hcovers⟩ := hcovers
  obtain ⟨hvariables, hstatements⟩ := Setting.accepts_append.mp ⟨hcovers, hparts⟩
  let p := Pair.upTo env body.method (env.settings.maxRecursionDepth + 1)
  have hp : p.InStep (settingOf h) := inStep_upTo (hsignature _ (by simp [Method.types])) _
  have hresolve : ∀ v ∈ declaredVariables body,
      KeepsStep (settingOf h) (p.left.resolve v) (p.right.resolve v) :=
    fun v hv w => (Pair.resolve (hvariables.of_mem hv).meets).forget
  refine (Couples.each hresolve).bind fun w₁ _ _ _ _ => ?_
  refine (hp.statements hstatements w₁).bind fun w₂ _ _ _ _ => ?_
  exact Still.context.bind fun _ _ _ => .pure trivial

/-- The runs start in step. -/
theorem paired_start (S : Setting env) (autoCast : Bool) (maxDepth : Nat) :
    State.Paired S ⟨[], []⟩ ⟨.start autoCast maxDepth, .start⟩ ⟨.start autoCast maxDepth, .start⟩ := by
  exact ⟨⟨⟨Scope.tracked_empty, Scope.tracked_empty, fun _ => .new rfl rfl⟩, rfl⟩,
    ⟨nofun, nofun, nofun⟩, ⟨nofun, nofun, nofun⟩, rfl, nofun⟩

end Lowering

/-- A method body in which packed arrays do no harm is lowered if it is lowered without packed
arrays. -/
theorem lower_of_unpacked {env : Env} {body : Cil.MethodBody} (h : PackingSafe env body)
    (hplain : ∃ m, (lower env.unpacked body .start).1 = .ok m) :
    ∃ m, (lower env body .start).1 = .ok m := by
  obtain ⟨m, hm⟩ := hplain
  have hstart := paired_start (settingOf h) env.settings.autoCast env.settings.maxRecursionDepth
  obtain ⟨m', _, _, hrun, -⟩ := keepsStep_lowerBody h _ hstart (Prod.ext hm rfl)
  exact ⟨m', congrArg Prod.fst hrun⟩

/-! ### A packed field -/

/-- An array in a static field. -/
def dataField : Field where
  name := "Data"
  declaringType := .named (.plain 41 "App" "Program" (.ofFile "App") .classType)
  type := .array Core.standard.int32 1
  isStatic := true
  initialData? := none

/-- A run in which the field holds a packed array. -/
def packingEnv : Env :=
  ⟨.ofCore .standard, { Directives.empty with fields := [(dataField.fullName, ⟨false, true⟩)] },
    .standard⟩

/-- A method that keeps the array in a local, and loads an element of it with the given operand. -/
def elementReader (operand : Cil.Operand) : Cil.MethodBody :=
  let buffer : Cil.Variable := ⟨"buffer", dataField.type, .localSlot 0, false⟩
  let x : Cil.Variable := ⟨"x", Core.standard.int32, .localSlot 1, false⟩
  let array : Cil.Expr := .plain .ldsfld (.field dataField) []
  let element : Cil.Expr :=
    .plain .ldelem operand [.plain .ldloc (.var buffer) [], .plain .ldcI4 (.int32 0) []]
  { method :=
      { name := "Read"
        declaringType := dataField.declaringType
        returnType := Core.standard.void
        parameters := []
        genericArguments := []
        flags := { MethodFlags.empty with isStatic := true } }
    this? := none
    parameters := []
    locals := [buffer, x]
    statements :=
      [.expression (.plain .stloc (.var buffer) [array]),
        .expression (.plain .stloc (.var x) [element])] }

/-- The element reader that names the type of the element. -/
def typedReader : Cil.MethodBody :=
  elementReader (.type Core.standard.int32)

/-- The definitions that the element reader is about. -/
def typedReaderTypes : List Ty :=
  dataField.declaringType :: Core.standard.basic

theorem arises_typedReader {t : Ty} (h : Arises packingEnv [typedReader] t) :
    Ty.Built packingEnv.core (· ∈ typedReaderTypes) t := by
  have hbasic : ∀ u ∈ packingEnv.core.basic, u ∈ typedReaderTypes :=
    fun u hu => List.mem_cons_of_mem _ hu
  have hint : Ty.Built packingEnv.core (· ∈ typedReaderTypes) Core.standard.int32 :=
    .base (hbasic _ (by
      simp [Core.basic, Primitive.all, Core.int32, packingEnv, Env.core, Hierarchy.ofCore]))
  have hmentions : typedReader.mentions
      = [.type dataField.declaringType, .type Core.standard.void, .type dataField.type,
        .type Core.standard.int32, .type dataField.type, .type dataField.declaringType,
        .type dataField.type, .type Core.standard.int32, .type Core.standard.int32,
        .type dataField.type] :=
    rfl
  refine h.built hbasic ?_ ?_ ?_ ?_
  · intro b hb u hu
    rw [List.mem_singleton.mp hb, hmentions] at hu
    simp only [List.mem_cons, Cil.Mention.type.injEq, List.not_mem_nil, or_false] at hu
    have harray : Ty.Built packingEnv.core (· ∈ typedReaderTypes) dataField.type :=
      .build (.array 0) hint
    have hprogram : Ty.Built packingEnv.core (· ∈ typedReaderTypes) dataField.declaringType :=
      .base List.mem_cons_self
    have hvoid : Ty.Built packingEnv.core (· ∈ typedReaderTypes) Core.standard.void :=
      .base (hbasic _ (by simp [Core.basic, packingEnv, Env.core, Hierarchy.ofCore]))
    rcases hu with rfl | rfl | rfl | rfl | rfl | rfl | rfl | rfl | rfl | rfl <;> assumption
  · -- The reader calls nothing.
    intro m hm
    cases hm with
    | named hb hm | redirected hb hm _ =>
      rw [List.mem_singleton.mp hb, hmentions] at hm
      simp at hm
  · change ∀ u ∈ typedReaderTypes, _
    decide +kernel
  · change ∀ u ∈ typedReaderTypes, _
    decide +kernel

theorem packingSafe_typedReader : PackingSafe packingEnv typedReader where
  instructions := by
    intro e he
    have hall : ∀ e ∈ typedReader.parts.filterMap Cil.Part.expression?,
        takesPacked packingEnv e = true := by
      decide +kernel
    exact hall e (List.mem_filterMap.mpr ⟨_, he, rfl⟩)
  unreserved := by
    intro v hv n
    have hall : ∀ v ∈ typedReader.parts.filterMap Cil.Part.variable?,
        v.name.toList.head? ≠ some '$' := by
      decide +kernel
    exact Scope.ne_temporaryName (hall v (List.mem_filterMap.mpr ⟨_, hv, rfl⟩)) n
  receiver := by
    intro v hv hrole
    have hall : ∀ v ∈ typedReader.parts.filterMap Cil.Part.variable?, v.role ≠ .this := by
      decide +kernel
    exact absurd hrole (hall v (List.mem_filterMap.mpr ⟨_, hv, rfl⟩))
  consistent := by
    intro v u hv hu hname _
    have hall : ∀ v ∈ typedReader.parts.filterMap Cil.Part.variable?,
        ∀ u ∈ typedReader.parts.filterMap Cil.Part.variable?, v.name = u.name →
          packingEnv.types.same v.type u.type = true := by
      decide +kernel
    exact hall v (List.mem_filterMap.mpr ⟨_, hv, rfl⟩) u
      (List.mem_filterMap.mpr ⟨_, hu, rfl⟩) hname
  plain := by
    intro t ht hpacked
    cases arises_typedReader ht with
    | base ht =>
      have hnone : ∀ t ∈ typedReaderTypes, t.isPackedArray ≠ true := by decide +kernel
      exact absurd hpacked (hnone t ht)
    | build b _ =>
      cases b with
      | packed => exact Hierarchy.dull_packedArrayOf _
      | byRef | pointer | array _ | nullable => cases hpacked

/-- A packed array is kept in a local, and an element of a named type is loaded from it. -/
theorem typedReader_lowers :
    PackingSafe packingEnv typedReader
      ∧ (∃ m, (lower packingEnv.unpacked typedReader .start).1 = .ok m)
      ∧ ∃ m, (lower packingEnv typedReader .start).1 = .ok m := by
  have hplain : ∃ m, (lower packingEnv.unpacked typedReader .start).1 = .ok m := by
    have hok : (lower packingEnv.unpacked typedReader .start).1.isOk = true := by decide +kernel
    cases h : (lower packingEnv.unpacked typedReader .start).1 with
    | ok m => exact ⟨m, rfl⟩
    | error e => rw [h] at hok; cases hok
  exact ⟨packingSafe_typedReader, hplain, lower_of_unpacked packingSafe_typedReader hplain⟩

/-- An element whose type is not named cannot be loaded from a packed array, and can from the
array. -/
theorem untyped_element_fails :
    (lower packingEnv.unpacked (elementReader .none) .start).1.isOk = true
      ∧ (lower packingEnv (elementReader .none) .start).1.isOk = false := by
  decide +kernel

end ScriptLowering
