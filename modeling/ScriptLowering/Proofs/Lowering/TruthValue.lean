import ScriptLowering.Proofs.Lowering.StructCopy

/-!
# Truth values

Negations, connectives and comparisons yield truth values. Connectives do so always, and so do
comparisons that stay comparisons or become type tests. But the negation of a negation is the
operand of the inner one, and nobody asks whether that is a truth value: conditions without a
numeric kind are not cast, and nothing is cast inside a comparison. So an instruction yields
something other than a truth value exactly if it negates the negation of such a thing
(`logical_yields_truth_iff`), and it may (`double_negation_yields_object`).
-/

namespace ScriptLowering

open Script

/-! ### Negated nodes -/

namespace Script.Node

/-- A node whose static type is that of truth values. -/
def IsTruth (c : Core) (r : Retyping) (n : Node) : Prop :=
  (n.computedType c r).isBoolean = true

/-- A negation of a node. -/
def IsNegationOf (n inner : Node) : Prop :=
  ∃ type rest, n = ⟨.unary .logicalNot type, inner :: rest⟩

variable {c : Core} {r : Retyping}

theorem isTruth_of_typeRule {form : Form} {operands : List Node}
    (hrule : form.typeRule c r = .known c.boolean) : IsTruth c r ⟨form, operands⟩ := by
  unfold IsTruth
  rw [computedType, hrule]
  rfl

theorem isTruth_binary (op : BinaryOp) (left right : Node) :
    IsTruth c r (.binary op left right c.boolean) :=
  isTruth_of_typeRule rfl

theorem isTruth_logicalNot_iff {operand : Node} :
    IsTruth c r (logicalNot c operand)
      ↔ ∀ inner, operand.IsNegationOf inner → IsTruth c r inner := by
  unfold logicalNot
  split
  · next type inner rest =>
    constructor
    · rintro hinner inner' ⟨type', rest', heq⟩
      obtain ⟨rfl, -⟩ := List.cons.inj (Node.mk.inj heq).2
      exact hinner
    · intro hall
      exact hall inner ⟨type, rest, rfl⟩
  · next type =>
    constructor
    · rintro - inner ⟨type', rest', heq⟩
      cases (Node.mk.inj heq).2
    · exact fun _ => isTruth_of_typeRule rfl
  · next hother _ =>
    constructor
    · rintro - inner ⟨type, rest, rfl⟩
      exact absurd rfl (hother type inner rest)
    · exact fun _ => isTruth_of_typeRule rfl

end Script.Node

namespace Lowering

variable {c : Core} {r : Retyping} {op : BinaryOp} {left right : Node}

/-! ### Comparisons -/

/-- A comparison for equality with a constant negates the truth value beside it, if it asks whether
that is false or whether it is not true. -/
def negates (op : BinaryOp) (k : Int64) : Bool :=
  match op with
  | .equal => k == 0
  | .notEqual => k != 0
  | _ => false

theorem isTruth_of_comparedWithConstant? {value : Node} {k : Int64}
    (h : comparedWithConstant? c r left right = some (value, k)) : value.IsTruth c r := by
  unfold comparedWithConstant? at h
  split at h
  case h_1 | h_2 =>
    split at h
    · next hboolean =>
      cases h
      exact hboolean
    · cases h
  case h_3 => cases h

theorem exists_of_collapseBoolean? {n : Node} (h : collapseBoolean? c r op left right = some n) :
    ∃ value k, comparedWithConstant? c r left right = some (value, k)
      ∧ n = if negates op k then .logicalNot c value else value := by
  unfold collapseBoolean? at h
  dsimp only at h
  split at h
  case h_1 | h_2 =>
    obtain ⟨⟨value, k⟩, hcompared, rfl⟩ := Option.map_eq_some_iff.mp h
    refine ⟨value, k, hcompared, ?_⟩
    rw [negates, bne]
    cases k == 0 <;> rfl
  case h_3 => cases h

/-- A comparison that negates collapses. -/
theorem collapseBoolean?_ne_none {value : Node} {k : Int64}
    (hcompared : comparedWithConstant? c r left right = some (value, k))
    (hnegates : negates op k = true) : collapseBoolean? c r op left right ≠ none := by
  unfold negates at hnegates
  unfold collapseBoolean?
  dsimp only
  split at hnegates
  · simp [hcompared]
  · simp [hcompared]
  · cases hnegates

theorem isTruth_compareWithNull (op : BinaryOp) (left right : Node) :
    (compareWithNull c op left right).IsTruth c r := by
  unfold compareWithNull
  dsimp only
  split
  · next test htest =>
    have hform : ∃ t operands, test = ⟨.typeTest t, operands⟩ := by
      unfold typeTest? at htest
      dsimp only at htest
      split at htest <;> cases htest <;> exact ⟨_, _, rfl⟩
    obtain ⟨t, operands, rfl⟩ := hform
    split
    · rw [Node.isTruth_logicalNot_iff]
      rintro inner ⟨type, rest, heq⟩
      cases (Node.mk.inj heq).1
    · exact Node.isTruth_of_typeRule rfl
  · exact Node.isTruth_binary _ _ _

theorem isTruth_compareValues (op : BinaryOp) (unsigned : Bool) (left right : Node) :
    (compareValues c r op unsigned left right).IsTruth c r := by
  unfold compareValues
  dsimp only
  split
  · exact Node.isTruth_binary _ _ _
  · split <;> exact Node.isTruth_binary _ _ _

theorem isTruth_compared_iff {unsigned : Bool} :
    (compared c r op unsigned left right).IsTruth c r
      ↔ ∀ value k, comparedWithConstant? c r left right = some (value, k) →
        negates op k = true → ∀ inner, value.IsNegationOf inner → inner.IsTruth c r := by
  unfold compared
  split
  · next n hcollapsed =>
    obtain ⟨value, k, hcompared, rfl⟩ := exists_of_collapseBoolean? hcollapsed
    have hvalue := isTruth_of_comparedWithConstant? hcompared
    cases hnegates : negates op k with
    | true =>
      rw [if_pos rfl, Node.isTruth_logicalNot_iff]
      constructor
      · intro hall value' k' hcompared' _
        obtain ⟨rfl, rfl⟩ := Prod.mk.inj (Option.some.inj (hcompared.symm.trans hcompared'))
        exact hall
      · exact fun hall => hall value k hcompared hnegates
    | false =>
      -- The truth value stays as it is, and nothing is negated.
      rw [if_neg Bool.false_ne_true]
      refine ⟨fun _ value' k' hcompared' hnegates' => ?_, fun _ => hvalue⟩
      obtain ⟨rfl, rfl⟩ := Prod.mk.inj (Option.some.inj (hcompared.symm.trans hcompared'))
      rw [hnegates] at hnegates'
      cases hnegates'
  · next hnone =>
    constructor
    · intro _ value k hcompared hnegates
      exact absurd hnone (collapseBoolean?_ne_none hcompared hnegates)
    · intro _
      split
      · exact isTruth_compareWithNull op left right
      · exact isTruth_compareValues op unsigned left right

/-! ### Instructions -/

/-- The instructions that make truth values: negations, connectives and comparisons. -/
def logicalCodes : List Cil.Opcode :=
  [.logicNot, .logicAnd, .logicOr, .ceq, .cne, .cgt, .cgtUn, .cge, .cgeUn, .clt, .cltUn, .cle,
    .cleUn]

/-- The rules of these instructions. -/
def Rule.isLogical : Rule → Bool
  | .negation | .connective _ | .comparison _ _ => true
  | _ => false

theorem isLogical_ruleOf : ∀ code ∈ logicalCodes, (ruleOf code).isLogical = true := by
  decide

/-- An instruction negates what it lowers an operand to: a negation its condition, and a comparison
for equality with a constant the truth value beside the constant. -/
inductive Lowerer.Negates (g : Lowerer) (e : Cil.Expr) (s s' : State) : Rule → Node → Prop where
  | condition {a : Cil.Expr} {operand : Node} : e.arguments[0]? = some a →
    ((g.condition a).run s : Except Error Node × State) = (.ok operand, s') →
    Negates g e s s' .negation operand
  | comparison {op : BinaryOp} {unsigned : Bool} {a b : Cil.Expr} {left right value : Node}
      {k : Int64} {s₁ : State} : e.arguments[0]? = some a → e.arguments[1]? = some b →
    ((g.uncast a).run s : Except Error Node × State) = (.ok left, s₁) →
    ((g.uncast b).run s₁ : Except Error Node × State) = (.ok right, s') →
    comparedWithConstant? g.core s'.context.scope.retyping left right = some (value, k) →
    negates op k = true → Negates g e s s' (.comparison op unsigned) value

variable {g : Lowerer} {e : Cil.Expr} {s s' : State} {n : Node}

theorem isTruth_negation_iff
    (h : (g.negation e).run s = (.ok n, s')) :
    n.IsTruth g.core s'.context.scope.retyping
      ↔ ∀ negated inner, g.Negates e s s' .negation negated → negated.IsNegationOf inner →
        inner.IsTruth g.core s'.context.scope.retyping := by
  unfold Lowerer.negation at h
  obtain ⟨a, s₁, ha, hrest⟩ := exists_run_of_bind h
  obtain ⟨hargument, rfl⟩ := run_argument ha
  obtain ⟨operand, s₂, hoperand, hlast⟩ := exists_run_of_bind hrest
  cases hlast
  rw [Node.isTruth_logicalNot_iff]
  constructor
  · intro hall negated inner hnegates
    cases hnegates with
    | condition hargument' hrun =>
      obtain rfl := Option.some.inj (hargument.symm.trans hargument')
      rw [hoperand] at hrun
      cases hrun
      exact hall inner
  · exact fun hall inner => hall operand inner (.condition hargument hoperand)

theorem isTruth_connective
    (h : (g.connective e op).run s = (.ok n, s')) :
    n.IsTruth g.core s'.context.scope.retyping := by
  unfold Lowerer.connective at h
  obtain ⟨a, s₁, -, h⟩ := exists_run_of_bind h
  obtain ⟨left, s₂, -, h⟩ := exists_run_of_bind h
  obtain ⟨b, s₃, -, h⟩ := exists_run_of_bind h
  obtain ⟨right, s₄, -, h⟩ := exists_run_of_bind h
  cases h
  exact Node.isTruth_binary op left right

theorem isTruth_comparison_iff {unsigned : Bool}
    (h : (g.comparison e op unsigned).run s = (.ok n, s')) :
    n.IsTruth g.core s'.context.scope.retyping
      ↔ ∀ negated inner, g.Negates e s s' (.comparison op unsigned) negated →
        negated.IsNegationOf inner → inner.IsTruth g.core s'.context.scope.retyping := by
  unfold Lowerer.comparison at h
  obtain ⟨a, s₁, ha, hrest⟩ := exists_run_of_bind h
  obtain ⟨hfirst, rfl⟩ := run_argument ha
  obtain ⟨left, s₂, hleft, hrest'⟩ := exists_run_of_bind hrest
  obtain ⟨b, s₃, hb, hright'⟩ := exists_run_of_bind hrest'
  obtain ⟨hsecond, rfl⟩ := run_argument hb
  obtain ⟨right, s₄, hright, hreading⟩ := exists_run_of_bind hright'
  obtain ⟨context, s₅, hcontext, hlast⟩ := exists_run_of_bind hreading
  cases hcontext
  cases hlast
  rw [isTruth_compared_iff]
  constructor
  · intro hall negated inner hnegates
    cases hnegates with
    -- Both runs lower the same operands in the same states.
    | comparison hfirst' hsecond' hleft' hright' hcompared hnegates =>
      obtain rfl := Option.some.inj (hfirst.symm.trans hfirst')
      obtain rfl := Option.some.inj (hsecond.symm.trans hsecond')
      rw [hleft] at hleft'
      cases hleft'
      rw [hright] at hright'
      cases hright'
      exact hall negated _ hcompared hnegates inner
  · intro hall value k hcompared hnegates inner
    exact hall value inner (.comparison hfirst hsecond hleft hright hcompared hnegates)

/-- A negation, connective or comparison that is lowered is a truth value, unless it negates the
negation of something that is none. -/
theorem logical_yields_truth_iff (g : Lowerer) (e : Cil.Expr)
    (hcode : e.code ∈ logicalCodes) (s : State) (n : Node) (s' : State)
    (hrun : ((g.apply e (ruleOf e.code)).run s : Except Error Node × State) = (.ok n, s')) :
    n.IsTruth g.core s'.context.scope.retyping
      ↔ ¬∃ negated inner, g.Negates e s s' (ruleOf e.code) negated ∧ negated.IsNegationOf inner
        ∧ ¬inner.IsTruth g.core s'.context.scope.retyping := by
  have hiff : n.IsTruth g.core s'.context.scope.retyping
      ↔ ∀ negated inner, g.Negates e s s' (ruleOf e.code) negated → negated.IsNegationOf inner →
        inner.IsTruth g.core s'.context.scope.retyping := by
    have hlogical := isLogical_ruleOf e.code hcode
    generalize ruleOf e.code = rule at hlogical hrun
    unfold Rule.isLogical at hlogical
    split at hlogical
    · exact isTruth_negation_iff hrun
    · refine ⟨fun _ negated inner hnegates => ?_, fun _ => isTruth_connective hrun⟩
      cases hnegates
    · exact isTruth_comparison_iff hrun
    · cases hlogical
  rw [hiff]
  simp only [not_exists, not_and, not_not]

/-! ### Negations of objects -/

/-- The lowering of a method that stores the value of an instruction. -/
def plainLowerer (e : Cil.Expr) : Lowerer :=
  .ofMethod plainEnv (storingMethod e).method

/-- An instruction that is lowered in a plain run, where casts are inserted. -/
def loweredTo (e : Cil.Expr) : Except Error Node × State :=
  ((Lowerer.ofMethod plainEnv (storingMethod e).method).apply e (ruleOf e.code)).run
    ⟨.start true 512, .start⟩

/-- Whether an instruction is lowered to a truth value. -/
def yieldsTruth? (e : Cil.Expr) : Option Bool :=
  (loweredTo e).1.toOption.map fun n =>
    (n.computedType .standard (loweredTo e).2.context.scope.retyping).isBoolean

theorem exists_of_yieldsTruth? {b : Bool} (h : yieldsTruth? e = some b) :
    ∃ n s', loweredTo e = (.ok n, s')
      ∧ (n.computedType .standard s'.context.scope.retyping).isBoolean = b := by
  unfold yieldsTruth? at h
  rcases hrun : loweredTo e with ⟨_ | n, s'⟩ <;> rw [hrun] at h
  · cases h
  · exact ⟨n, s', rfl, Option.some.inj h⟩

/-- The negation of an expression. -/
def negationOf (e : Cil.Expr) : Cil.Expr :=
  .plain .logicNot .none [e]

/-- The double negation of a truth value is the truth value, and no negation of anything else is
negated. -/
theorem double_negation_of_truth :
    let e := negationOf (negationOf (loadOf "c" Core.standard.boolean))
    let g := Lowerer.ofMethod plainEnv (storingMethod e).method
    ∃ n s', loweredTo e = (.ok n, s') ∧ n.IsTruth .standard s'.context.scope.retyping
      ∧ ¬∃ negated inner, g.Negates e ⟨.start true 512, .start⟩ s' .negation negated
        ∧ negated.IsNegationOf inner ∧ ¬inner.IsTruth .standard s'.context.scope.retyping := by
  intro e g
  obtain ⟨n, s', hrun, htruth⟩ := exists_of_yieldsTruth? (e := e) (b := true) (by decide +kernel)
  exact ⟨n, s', hrun, htruth,
    (logical_yields_truth_iff g e (by decide) _ n s' hrun).mp htruth⟩

/-- The double negation of an object is the object, and so is the comparison of its negation with
zero: they are lowered, but not to truth values. -/
theorem double_negation_yields_object :
    let object := loadOf "o" Core.standard.object
    ∀ e ∈ [negationOf (negationOf object),
        .plain .ceq .none [negationOf object, .plain .ldcI4 (.int32 0) []]],
      e.code ∈ logicalCodes
        ∧ ∃ n s', loweredTo e = (.ok n, s') ∧ ¬n.IsTruth .standard s'.context.scope.retyping := by
  intro object
  have hobject : ∀ e, yieldsTruth? e = some false →
      ∃ n s', loweredTo e = (.ok n, s') ∧ ¬n.IsTruth .standard s'.context.scope.retyping := by
    intro e he
    obtain ⟨n, s', hrun, hfalse⟩ := exists_of_yieldsTruth? he
    refine ⟨n, s', hrun, fun htruth => ?_⟩
    rw [Node.IsTruth, hfalse] at htruth
    cases htruth
  rw [List.forall_mem_cons, List.forall_mem_singleton]
  exact ⟨⟨by decide, hobject _ (by decide +kernel)⟩, by decide, hobject _ (by decide +kernel)⟩

end Lowering

end ScriptLowering
