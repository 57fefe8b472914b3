import ScriptLowering.Proofs.Lowering.Abides
import ScriptLowering.Proofs.Lowering.Lifting
import ScriptLowering.Proofs.Lowering.Rule

/-!
# Lowering of expressions abides

Every rule yields a proper tree, provided the lowering of subexpressions does (`Lowerer.Abiding`):
the criterion `Lowerer.properTrees` is closed. A level of an expression takes one level of the
depth, so by induction on the levels the lowering of expressions abides (`abides_lowerUpTo`).
-/

namespace ScriptLowering

namespace Script.Form

variable {form : Form}

theorem isCommon_binary {op : BinaryOp} (h : op.isAssignment = false) (type : Ty) :
    (binary op type).isCommon = true := by
  cases op <;> first | rfl | cases h

theorem isCommon_of_isGeneral (h : form.isGeneral = true) : form.isCommon = true := by
  cases form with
  | unary op type => cases op <;> first | rfl | cases h
  | binary op type => exact isCommon_binary (Bool.not_eq_true' _ ▸ h) type
  | _ => first | rfl | cases h

theorem isCommon_of_isLoose (h : form.isLoose = true) : form.isCommon = true := by
  cases form with
  | binary op type => exact isCommon_binary (Bool.not_eq_true' _ ▸ h) type
  | _ => first | rfl | cases h

theorem takesPassed_of_isLoose (h : form.isLoose = true) : form.takesPassed = false := by
  cases form with
  | binary op result => cases op <;> first | rfl | cases h
  | _ => first | rfl | cases h

end Script.Form

namespace Lowering

open Script

namespace Lowerer

/-- The job of lowering the method, when a number of diagnostics was recorded before. -/
abbrev job (g : Lowerer) (recorded : Nat) : Job :=
  ⟨g.env, g.method, recorded⟩

/-- A computation that yields a value. -/
abbrev Gives (g : Lowerer) (recorded : Nat) (r : Reach) (x : Lower Node) (s : State) : Prop :=
  Abides (g.job recorded) r x s (Proper (g.job recorded))

/-- Lowering of subexpressions that yields values, if they are not too high. -/
def Abiding (g : Lowerer) (recorded : Nat) (r : Reach) : Prop :=
  ∀ {e : Cil.Expr} {s : State}, e.height ≤ r.height → g.Gives recorded r (g.raw e) s

end Lowerer

variable {j : Job} {g : Lowerer} {k : Nat} {r : Reach} {s : State} {e : Cil.Expr} {n : Node}

/-! ### Values -/

theorem Proper.located {location : Node} (hn : Proper j s n) (hs : j.Fits s)
    (h : Located j.core s.context.scope.retyping n location) : Proper j s location := by
  cases h with
  | taken => exact hn.orderly.proper_firstOperand rfl
  | member => exact (hn.orderly.proper_firstOperand rfl).around rfl
  | element =>
    refine .common rfl (List.forall_mem_cons.mpr ⟨hn.orderly.proper_firstOperand rfl, ?_⟩)
    exact fun o ho => hn.orderly.proper_operand rfl (List.mem_of_mem_tail ho)
  | @declared v _ hreference =>
    refine .simple rfl (by simpa using hn) fun hj => (hn.typed hj).referent (.inl rfl) ?_
    -- A variable that was declared as a reference still is one.
    have hv : v ∈ s.context.scope.allVariables := (hn.orderly.root.regular hj).bound v rfl
    rw [computedType_known rfl]
    exact (hs.typed.isByRef_typeOf hv).trans hreference
  | result hresult =>
    refine .simple rfl (by simpa using hn) fun hj => (hn.typed hj).referent (.inr rfl) ?_
    rw [computedType_known rfl]
    exact hresult
  | referent hreference => exact hn.dereference hreference
  | slot | itself => exact hn

/-- The value under a copy is a value. -/
theorem Proper.uncopied (hn : Proper j s n) : Proper j s (Lowerer.uncopied n) := by
  unfold Lowerer.uncopied
  split
  · next hform => exact hn.orderly.proper_firstOperand (by rw [hform]; rfl)
  · exact hn

/-- The negation of a value is a value. -/
theorem Proper.logicalNot (hn : Proper j s n) (c : Core) : Proper j s (.logicalNot c n) := by
  unfold Node.logicalNot
  split
  · exact hn.orderly.proper_operand rfl List.mem_cons_self
  · exact proper_literal
  · exact hn.around rfl

/-! ### Calls -/

theorem Proper.replaceCall? {h : Hierarchy} {changes : Retyping} {form : Node}
    (hn : Proper j s n) (hj : ¬j.KeepsCalls)
    (hreplace : Canonical.replaceCall? h changes n = some form) : Proper j s form := by
  have hnever : ∀ {p : Prop}, j.KeepsCalls → p := fun hkeeps => absurd hkeeps hj
  have hroutine : Node.IsRoutine (Conforms j s) := fun _ _ hform =>
    conforms_of_isRoutine hform hnever
  exact ⟨⟨Canonical.everywhere_replaceCall? hroutine hn.orderly hreplace, hnever⟩, hnever⟩

namespace Lowerer

theorem abides_earlyForm? (hn : Proper (g.job k) s n) :
    Abides (g.job k) r (g.earlyForm? n) s (fun s' form? =>
      ∀ form, form? = some form → Proper (g.job k) s' form) := by
  refine .ite (fun hearly => .reading _ rfl (.pure fun form hform => ?_)) fun _ => .pure (by simp)
  refine hn.replaceCall? (fun hkeeps => ?_) hform
  have hkeeps : g.env.settings.earlyIntrinsics = false := hkeeps
  rw [hkeeps] at hearly
  cases hearly

theorem abides_askMembers {α : Type} {ask : MemberMemo → α × MemberMemo} :
    Abides j r (Lower.askMembers ask) s (fun _ _ => True) :=
  .step rfl fun _ => ⟨⟨⟨rfl, .refl _, Nat.le_refl _⟩, .refl _, id, [], (List.append_nil _).symm,
    by simp⟩, trivial⟩

/-! ### The criterion -/

/-- Values are proper trees. An expression is lowered if it is not too high. -/
def properTrees (g : Lowerer) (recorded : Nat) (r : Reach) : Criterion g where
  lexicon := .all g.env
  Meets x s post := Abides (g.job recorded) r x s post
  Later := State.Proceeds g.method
  Fits := (g.job recorded).Fits
  Lowers e := e.height ≤ r.height
  Applies e := e.Above r.height
  Value s _ n := Proper (g.job recorded) s n
  Part s _ n := Proper (g.job recorded) s n
  Passed := Passed (g.job recorded)
  Own s v := v ∈ s.context.scope.allVariables
  Temporary s v := v ∈ s.context.scope.allVariables
  Accessed _ := True
  Strict := (g.job recorded).KeepsCalls

theorem composes_properTrees : (g.properTrees k r).Composes where
  refl := .refl
  trans := .trans
  pure := .pure
  throw he := .throw fun _ => he
  bind := .bind
  fitting h hs := h hs hs
  reading a hx hf := .reading a (hx _) hf
  withAutoCast := .withAutoCast

theorem lasts_properTrees : (g.properTrees k r).Lasts where
  value_later h hn := hn.later h
  part_later h hn := hn.later h
  passed_later h hn := hn.later h
  own_later h hv := h.subset hv
  temporary_later h hv := h.subset hv

theorem makes_properTrees : (g.properTrees k r).Makes where
  part hn := hn
  weaken hn := hn
  weakenPart hn _ := hn
  general hform _ _ h := .common (Form.isCommon_of_isGeneral hform) h
  loose hform _ _ h := .common (Form.isCommon_of_isLoose hform) h
  parts hform hn :=
    ⟨fun _ _ => trivial, fun _ ho =>
      hn.orderly.proper_operand (Form.takesPassed_of_isLoose hform) ho⟩
  literal _ _ := proper_literal
  amount _ _ _ _ _ _ := proper_literal
  own := proper_ofVariable
  temporary hv _ := proper_ofVariable hv
  assignTemporary hv hvalue _ := (proper_ofVariable hv).orderly.assign hvalue.orderly
  assignment htarget hvalue hlocation _ :=
    htarget.updating hlocation (List.forall_mem_singleton.mpr hvalue) rfl rfl rfl
  assignReferent haddress hvalue _ :=
    (orderly_simple rfl (List.forall_mem_singleton.mpr haddress)).assign hvalue.orderly
  update hn hlocation _ := hn.updating hlocation (List.forall_mem_nil _) rfl rfl rfl
  afterPrelude := .afterPrelude
  structCopy := .structCopy
  uncopied := .uncopied
  takeReference hn _ := hn.takeReference
  locationOf hs hn := hn.located hs (located_locationOf ..)
  memberReference hs hn _ := (hn.located hs (located_locationOf ..)).around rfl
  staticReference _ := by
    refine Proper.around ?_ rfl
    unfold typeTargetUnder
    split <;> exact proper_leaf rfl
  writeThrough := .writeThrough
  logicalNot hn := hn.logicalNot _
  nullableUnwrap hn _ := hn.around rfl
  breakOut _ := proper_leaf rfl
  continueLoop _ := proper_leaf rfl

theorem lifting_properTrees : (g.properTrees k r).Lifting fun s m n =>
    Orderly (g.job k) s m ∧ Alike g.core m n where
  toComposes := composes_properTrees
  toLasts := lasts_properTrees
  toMakes := makes_properTrees
  newTemporary _ := .newTemporary
  computedType _ _ := trivial
  flat hn := hn
  like_later h hm := ⟨hm.1.later h, hm.2⟩
  operand h _ ho := ⟨h.1.operand ho, .refl _⟩
  congr h hms := by
    obtain ⟨horderly, halike⟩ := (List.forall₂_and_left _ _).mp hms
    exact ⟨orderly_mk.mpr ⟨h.1.root.replace halike, horderly⟩, .congr _ halike⟩
  unwrapped h := h.1.proper_operand rfl List.mem_cons_self
  unwrap h hm := by
    refine ⟨orderly_simple rfl (List.forall_mem_cons.mpr ⟨hm, fun o ho => ?_⟩), rfl, fun _ => ?_⟩
    · exact h.1.proper_operand rfl (List.mem_cons_of_mem _ ho)
    · rw [computedType_known rfl, computedType_known rfl]
  ofValue hn := ⟨hn.orderly, .refl _⟩
  toValue hn hm := by
    refine ⟨⟨hm.1, fun hj => (hn.typed hj).congr hm.2.type⟩, fun hj => ?_⟩
    rw [hm.2.form]
    exact hn.plain hj

theorem Abiding.closed (hg : g.Abiding k r) : (g.properTrees k r).Closed where
  toComposes := composes_properTrees
  toLasts := lasts_properTrees
  toMakes := makes_properTrees
  raw he := hg he
  lowers he ha := he _ ha
  applies he _ ha := (Cil.Expr.height_argument ha).le.trans he
  covers _ := Lexicon.covers_all
  returns := trivial
  resolve _ _ := .resolve
  retype hv _ hpacked harray := by
    refine .fitting fun hs => ?_
    have hretype := hs.typed.retype hv harray hpacked
    exact (Abides.modifyTable (Scope.grows_retype ..) hretype.2 fun _ => hretype.1).mono
      fun _ _ _ _ => trivial
  newTemporary _ := .newTemporary
  variableType _ _ := trivial
  computedType _ _ := trivial
  methodDirective? _ := abides_askMembers.mono fun _ _ _ _ => trivial
  asks _ := abides_askMembers
  propertyOf? _ := abides_askMembers.mono fun _ _ _ _ _ _ => trivial
  earlyForm? := abides_earlyForm?
  liftIn hn ht := lifting_properTrees.gives hn ht
  unsupported hns := (Abides.warn rfl).bind fun _ _ h hwarned =>
    .pure (proper_unsupported hwarned fun o ho => (hns o ho).later h)
  passed := Proper.toPassed
  plain hkeeps hn := hn.plain hkeeps
  passByReference hn href := hn.passByReference href
  invocation _ hconvention hreceiver harguments := .invocation hconvention hreceiver harguments
  newObject _ harguments := .taking rfl rfl harguments
  propertyAccess _ htarget hindices :=
    .taking rfl rfl (List.forall_mem_cons.mpr ⟨htarget.toPassed, hindices⟩)
  assignPassed htarget hvalue _ _ := htarget.orderly.assign hvalue.orderly

end Lowerer

theorem abides_lowerUpTo {env : Env} {method : Method} :
    ∀ (levels height : Nat) {e : Cil.Expr} {s : State}, e.height ≤ height →
      Abides ⟨env, method, k⟩ ⟨levels, height⟩ (lowerUpTo env method levels e) s
        (Proper ⟨env, method, k⟩)
  | 0, height, e, s, _ => by
    refine .throw fun hr => ?_
    -- The depth cannot be both enough for the height and less than no level.
    have hheight : s.context.depth + height ≤ s.context.maxDepth := hr.height
    have hlevels : s.context.maxDepth < s.context.depth + 0 := hr.levels
    omega
  | levels + 1, 0, e, s, he => by
    rw [Cil.Expr.height_eq] at he
    omega
  | levels + 1, height + 1, e, s, he => by
    have hg : Lowerer.Abiding ⟨env, method, lowerUpTo env method levels⟩ k ⟨levels, height⟩ :=
      fun h => abides_lowerUpTo levels height h
    exact .oneLevelDown fun _ => hg.closed.apply_ruleOf (Cil.Expr.above_of_height_le he)

theorem abiding_ofMethod (env : Env) (method : Method) (height : Nat) :
    (Lowerer.ofMethod env method).Abiding k ⟨env.settings.maxRecursionDepth + 1, height⟩ :=
  fun h => abides_lowerUpTo _ height h

end Lowering

end ScriptLowering
