import ScriptLowering.Proofs.Packing.Couple

/-!
# Steps of two runs

The steps that rules are made of, taken by two runs: reading the parts of an instruction, resolving a
variable, asking for a type, coercing, assigning. Each rule of one module of rules is a sequence of
such steps.
-/

namespace ScriptLowering.Lowering

open Script

section

variable {env : Env} {S : Setting env} {w w' : Ledger} {l r : Node} {b : Bool}

/-! ### Parts of an expression -/

/-- What a setting asks of a variable or an expression. -/
def Setting.Fits (S : Setting env) : Cil.Part → Prop
  | .variable v => S.vars v
  | .expression e => takesPacked env e = true

/-- A part of a method body with the given mentions and parts is over the types and variables of a
setting. -/
structure Setting.Accepts (S : Setting env) (mentions : List Cil.Mention)
    (parts : List Cil.Part) : Prop where
  covers : S.L.Covers mentions
  parts : ∀ x ∈ parts, S.Fits x

/-- An expression over the types and variables of a setting. -/
abbrev Setting.Admits (S : Setting env) (e : Cil.Expr) : Prop :=
  S.Accepts e.mentions e.parts

variable {e : Cil.Expr}

theorem Setting.Admits.takesPacked (he : S.Admits e) : takesPacked env e = true :=
  he.parts _ e.mem_parts_self

theorem Setting.Admits.argument (he : S.Admits e) {a : Cil.Expr} (ha : a ∈ e.arguments) :
    S.Admits a :=
  ⟨he.covers.argument ha, fun x hx => he.parts x (Cil.Expr.mem_parts_argument ha hx)⟩

theorem Setting.Admits.type? (he : S.Admits e) {t : Ty} (ht : e.type? = some t) : S.L.types t :=
  he.covers.type (Cil.Expr.operand_of_type? ht)

namespace Couples

variable {α β : Type} {post : Ledger → α → β → Prop} (he : S.Admits e)
include he

theorem argument {index : Nat} {f : Cil.Expr → Lower α} {f' : Cil.Expr → Lower β}
    (h : ∀ a ∈ e.arguments, S.Admits a → Couples S w (f a) (f' a) post) :
    Couples S w (Lowerer.argument e index >>= f) (Lowerer.argument e index >>= f') post := by
  unfold Lowerer.argument
  split
  · next a ha =>
    have hmem := List.mem_of_getElem? ha
    exact h a hmem (he.argument hmem)
  · exact throw

/-- An argument that is lowered at once. -/
theorem operand {γ δ : Type} {index : Nat} {x : Cil.Expr → Lower γ} {x' : Cil.Expr → Lower δ}
    {f : γ → Lower α} {f' : δ → Lower β} {mid : Cil.Expr → Ledger → γ → δ → Prop}
    (hx : ∀ {a}, S.Admits a → ∀ w, Couples S w (x a) (x' a) (mid a))
    (hf : ∀ a ∈ e.arguments, ∀ w₁ l r, w.Le w₁ → mid a w₁ l r → Couples S w₁ (f l) (f' r) post) :
    Couples S w (do f (← x (← Lowerer.argument e index)))
      (do f' (← x' (← Lowerer.argument e index))) post :=
  .argument he fun a hmem ha => (hx ha w).bind (hf a hmem)

theorem variableOperand {f : Cil.Variable → Lower α} {f' : Cil.Variable → Lower β}
    (h : ∀ v, S.Meets v → Couples S w (f v) (f' v) post) :
    Couples S w (Lowerer.variableOperand e >>= f) (Lowerer.variableOperand e >>= f') post := by
  unfold Lowerer.variableOperand
  split
  · next v hv =>
    have htypes := he.covers.var (Cil.Expr.operand_of_var? hv)
    exact h v ⟨he.parts _ (Cil.Expr.mem_parts_var hv), htypes⟩
  · exact throw

theorem fieldOperand {f : Field → Lower α} {f' : Field → Lower β}
    (h : ∀ x, e.operand = .field x → S.L.types x.type → Couples S w (f x) (f' x) post) :
    Couples S w (Lowerer.fieldOperand e >>= f) (Lowerer.fieldOperand e >>= f') post := by
  unfold Lowerer.fieldOperand
  split
  · next x hx =>
    have hoperand := Cil.Expr.operand_of_field? hx
    exact h x hoperand (he.covers.field hoperand _ (by simp [Field.types]))
  · exact throw

theorem methodOperand {f : Method → Lower α} {f' : Method → Lower β}
    (h : ∀ m, e.method? = some m → S.L.Knows (.method m) → Couples S w (f m) (f' m) post) :
    Couples S w (Lowerer.methodOperand e >>= f) (Lowerer.methodOperand e >>= f') post := by
  unfold Lowerer.methodOperand
  split
  · next m hm => exact h m hm (he.covers.method (Cil.Expr.operand_of_method? hm))
  · exact throw

theorem typeOperand {f : Ty → Lower α} {f' : Ty → Lower β}
    (h : ∀ t, S.L.types t → Couples S w (f t) (f' t) post) :
    Couples S w (Lowerer.typeOperand e >>= f) (Lowerer.typeOperand e >>= f') post := by
  unfold Lowerer.typeOperand
  split
  · next t ht => exact h t (he.type? ht)
  · exact throw

end Couples

/-! ### Variables -/

theorem Table.Paired.resolve {s s' : Table} (h : s.Paired S w s') {u : Cil.Variable}
    (hu : S.Meets u) {answer : Variable × Table} (hanswer : s.resolve env.types u = .ok answer) :
    ∃ (answer' : Variable × Table) (w' : Ledger), s'.resolve env.types u = .ok answer'
      ∧ w.Le w' ∧ answer.2.Paired S w' answer'.2 ∧ TwinVariables S.L w' answer.1 answer'.1 := by
  unfold Table.resolve Table.declare at hanswer ⊢
  cases h.names hu.vars with
  | new hleft hright =>
    rw [hleft] at hanswer
    cases hanswer
    rw [hright]
    obtain ⟨hknown, htracked⟩ := h.left.add u.name (kindOfRole u.role) u.type
    obtain ⟨hknown', htracked'⟩ := h.right.add u.name (kindOfRole u.role) u.type
    let w' : Ledger := ⟨w.left ++ [u.type], w.right ++ [u.type]⟩
    have hle : w.Le w' := ⟨List.prefix_append _ _, List.prefix_append _ _⟩
    have hreceiver : (s.add u.name (kindOfRole u.role) u.type).1.isThis = true →
        u.type.isArray = false := by
      intro hthis
      refine S.receiver hu.vars ?_
      cases hrole : u.role <;> rw [hrole] at hthis <;> first | rfl | cases hthis
    have htwins : TwinVariables S.L w' (s.add u.name (kindOfRole u.role) u.type).1
        (s'.add u.name (kindOfRole u.role) u.type).1 :=
      ⟨rfl, rfl, hu.types, hknown, hknown', hreceiver⟩
    refine ⟨_, w', rfl, hle, ⟨htracked, htracked', fun {v} hv => ?_⟩, htwins⟩
    by_cases hname : u.name = v.name
    · rw [← hname]
      exact .met (find?_add_self ..) (find?_add_self ..) htwins hu.vars rfl rfl
    · exact (h.names hv).later hle (find?_add_of_ne hname _ _) (find?_add_of_ne hname _ _)
  | @met v v' hleft hright htwins u' hu' hname htype =>
    rw [hleft] at hanswer
    rw [hright]
    simp only at hanswer ⊢
    split at hanswer
    · cases hanswer
    · next htaken =>
      cases hanswer
      refine ⟨(v', s'), w, if_neg ?_, .refl w, h, htwins⟩
      -- Were the right run to refuse it, the left one would have compared the same two types.
      intro hrefused
      obtain ⟨hdiffers, hnotPacked⟩ := Bool.and_eq_true_iff.mp hrefused
      have hsame' : s'.typeOf v' = v'.declaredType := by
        rcases h.right.settled.typeOf htwins.right with hsame | ⟨-, -, -, hpacked⟩
        · exact hsame
        · unfold Scope.typeOf at hnotPacked
          rw [hpacked] at hnotPacked
          cases hnotPacked
      rw [hsame', ← htwins.declaredType, htype] at hdiffers hnotPacked
      rcases h.left.settled.typeOf htwins.left with hsame | ⟨harray, -, -, -⟩
      · -- The left run compared the same types.
        refine htaken ?_
        have hcurrent : s.typeOf v = u'.type := hsame.trans htype
        rw [hcurrent]
        exact Bool.and_eq_true_iff.mpr ⟨hdiffers, hnotPacked⟩
      · -- The variable was an array each time it was met.
        rw [htype] at harray
        have hconsistent := S.consistent hu' hu.vars hname harray
        rw [hconsistent] at hdiffers
        cases hdiffers

/-- A temporary in each run. -/
theorem Table.Paired.newTemporary {s s' : Table} (h : s.Paired S w s') (t t' : Ty) :
    ∃ w', w.Le w' ∧ (s.newTemporary t).2.Paired S w' (s'.newTemporary t').2
      ∧ Known w'.left (s.newTemporary t).1 ∧ Known w'.right (s'.newTemporary t').1 := by
  obtain ⟨hknown, htracked⟩ := h.left.addTemporary _ t
  obtain ⟨hknown', htracked'⟩ := h.right.addTemporary _ t'
  let w' : Ledger := ⟨w.left ++ [t], w.right ++ [t']⟩
  have hle : w.Le w' := ⟨List.prefix_append _ _, List.prefix_append _ _⟩
  refine ⟨w', hle, ⟨htracked, htracked', fun {u} hu => ?_⟩, hknown, hknown'⟩
  have hspills : s.Spills (s.newTemporary t).2 := .temporary .refl t
  have hspills' : s'.Spills (s'.newTemporary t').2 := .temporary .refl t'
  have hname := S.unreserved hu
  exact (h.names hu).later hle (hspills.find? hname) (hspills'.find? hname)

/-- A temporary of close types in each run. -/
theorem Couples.newTemporary {t t' : Ty} (hclose : Close S.L t t') :
    Couples S w (Lower.newTemporary t) (Lower.newTemporary t')
      (fun w' n n' => (∃ v v', n = .ofVariable v ∧ n' = .ofVariable v') ∧ TypedAlike S.L w' n n') := by
  refine Still.context.bind fun c c' hc => ?_
  obtain ⟨w', hle, htable, hknown, hknown'⟩ := hc.table.newTemporary t t'
  refine (Couples.setTable hle htable).bind fun w₁ _ _ _ hw => ?_
  subst hw
  exact .pure ⟨⟨_, _, rfl, rfl⟩, .ofVariable hknown hknown' hclose⟩

/-! ### Two sets of rules -/

/-- The rules for a method with two ways to lower subexpressions, without packed arrays and with
them. -/
structure Pair (env : Env) where
  method : Method
  plain : Cil.Expr → Lower Node
  packed : Cil.Expr → Lower Node

/-- The rules without packed arrays. -/
def Pair.left (p : Pair env) : Lowerer :=
  ⟨env.unpacked, p.method, p.plain⟩

/-- The rules with packed arrays. -/
def Pair.right (p : Pair env) : Lowerer :=
  ⟨env, p.method, p.packed⟩

theorem Pair.core_left (p : Pair env) : p.left.core = env.core :=
  rfl

theorem Pair.core_right (p : Pair env) : p.right.core = env.core :=
  rfl

/-- Answers that are twins. -/
abbrev Twins (S : Setting env) (b : Bool) (w : Ledger) (l r : Node) : Prop :=
  Twin S.L w b l r

/-- Subexpressions are lowered to twins. -/
structure Pair.InStep (p : Pair env) (S : Setting env) : Prop where
  raw : ∀ {e}, S.Admits e → ∀ w, Couples S w (p.plain e) (p.packed e)
    (Twins S (loadsPacked env.directives e))
  returns : S.L.types p.method.returnType

namespace Pair

variable {p : Pair env}

/-! ### Reading steps -/

theorem typeOf (h : TypedAlike S.L w l r) :
    Still S w (p.left.typeOf l) (p.right.typeOf r) (Close S.L) :=
  .reading fun _ _ hc => h.now hc.left hc.right

theorem variableType {v v' : Variable} (h : TwinVariables S.L w v v') :
    Still S w (Lowerer.variableType v) (Lowerer.variableType v') (Close S.L) :=
  .reading fun _ _ hc => hc.left.close hc.right h.left h.right h.close

theorem location (h : Twin S.L w b l r) :
    Still S w (p.left.location l) (p.right.location r) (Twin S.L w b) :=
  .reading fun _ _ hc => h.locationOf hc.left hc.right

theorem unsigned (h : Twin S.L w b l r) :
    Still S w (p.left.unsigned l) (p.right.unsigned r) (Twin S.L w b) :=
  .reading fun _ _ hc => h.asUnsigned hc.left hc.right

theorem coerce (h : Twin S.L w b l r) {t : Ty} (ht : S.L.types t) :
    Still S w (p.left.coerce l t) (p.right.coerce r t) (Twin S.L w b) :=
  .reading fun _ _ hc => h.coerced hc.autoCastEnabled hc.left hc.right ht

/-- Coercion to different types. -/
theorem coerceEach {t t' : Ty} (hl : TypedIn S.L w.left l) (hr : TypedIn S.L w.right r)
    (ht : S.L.types t) (ht' : S.L.types t') :
    Still S w (p.left.coerce l t) (p.right.coerce r t')
      (fun n n' => TypedIn S.L w.left n ∧ TypedIn S.L w.right n') :=
  .reading fun c c' _ => ⟨hl.coerced ht c, hr.coerced ht' c'⟩

theorem copy (htypes : TypedAlike S.L w l r) :
    Still S w (p.left.copy l) (p.right.copy r)
      (fun n n' => TypedAlike S.L w n n' ∧ isNullUnderCasts n = isNullUnderCasts l
        ∧ isNullUnderCasts n' = isNullUnderCasts r ∧ n.form.method? = l.form.method?
        ∧ n'.form.method? = r.form.method?) := by
  refine .reading fun c c' _ => ?_
  obtain ⟨habsent, hmethod⟩ := absent_and_method?_copied l p.left.core c.scope.retyping
  obtain ⟨habsent', hmethod'⟩ := absent_and_method?_copied r p.right.core c'.scope.retyping
  exact ⟨htypes.copied _ _, habsent, habsent', hmethod, hmethod'⟩

/-- Copies of which nothing is needed. -/
theorem copyAny : Still S w (p.left.copy l) (p.right.copy r) (fun _ _ => True) :=
  .reading fun _ _ _ => trivial

theorem requireReference (h : Twin S.L w b l r) {use : String} :
    Still S w (p.left.requireReference l use) (p.right.requireReference r use)
      (fun n n' => n = l ∧ n' = r) := by
  refine Still.context.andThen fun c c' hc => ?_
  have hreference : l.isReference p.left.core c.scope.retyping
      = r.isReference p.right.core c'.scope.retyping := h.isReference_eq hc.left hc.right
  rw [hreference]
  split
  · intro s s' _ a t hrun
    cases hrun
    exact ⟨rfl, r, rfl, rfl, rfl⟩
  · intro s s' _ a t hrun
    cases hrun

theorem compoundAssign (hlocation : l.isLocation = true → r.isLocation = true)
    (htypes : TypedAlike S.L w l r) {op : BinaryOp} {value value' : Node} :
    Still S w (p.left.compoundAssign op l value) (p.right.compoundAssign op r value')
      (PlainTwins S.L w) := by
  refine Still.context.andThen fun c c' hc => .ofExcept fun n hn => ?_
  have hclose := htypes.now hc.left hc.right
  unfold Node.compoundAssign at hn ⊢
  split at hn
  · cases hn
  · next hop =>
    split at hn
    · cases hn
    · next hl =>
      cases hn
      have hr : r.isLocation = true := hlocation (by simpa using hl)
      refine ⟨_, by rw [if_neg hop, hr]; rfl, ?_⟩
      exact .known hclose rfl rfl

theorem assign (hlocation : l.isLocation = true → r.isLocation = true)
    (htypes : TypedAlike S.L w l r) {value value' : Node} :
    Still S w (p.left.assign l value) (p.right.assign r value') (PlainTwins S.L w) :=
  compoundAssign (p := p) hlocation htypes

/-! ### Changing steps -/

theorem resolve {u : Cil.Variable} (hu : S.Meets u) :
    Couples S w (p.left.resolve u) (p.right.resolve u)
      (fun w' v v' => TwinVariables S.L w' v v') := by
  refine Still.context.bind fun c c' hc => ?_
  have hresolve : Still S w (Lower.ofExcept (c.table.resolve p.left.env.types u))
      (Lower.ofExcept (c'.table.resolve p.right.env.types u))
      (fun answer answer' => ∃ w', w.Le w' ∧ answer.2.Paired S w' answer'.2
        ∧ TwinVariables S.L w' answer.1 answer'.1) := by
    refine .ofExcept fun answer hanswer => ?_
    obtain ⟨answer', w', hanswer', h⟩ := hc.table.resolve hu hanswer
    exact ⟨answer', hanswer', w', h⟩
  refine hresolve.bind ?_
  rintro ⟨v, table⟩ ⟨v', table'⟩ ⟨w', hle, htable, htwins⟩
  refine (Couples.setTable hle htable).bind fun w₁ _ _ _ hw => ?_
  subst hw
  exact .pure htwins

theorem warn {concern : Concern} {message : String} :
    Couples S w (p.left.warn e concern message) (p.right.warn e concern message)
      (fun _ _ _ => True) := by
  intro s s' hs a t hrun
  cases hrun
  exact ⟨(), _, w, rfl, .refl w, ⟨hs.context, hs.members⟩, trivial⟩

/-! ### Subexpressions -/

namespace InStep

variable (hp : p.InStep S)
include hp

theorem expression (he : S.Admits e) (w : Ledger) :
    Couples S w (p.left.expression e) (p.right.expression e)
      (Twins S (loadsPacked env.directives e)) := by
  refine (hp.raw he w).bind fun w₁ l r _ h => ?_
  split
  · next expected hexpected => exact (Pair.coerce h (he.covers.expected hexpected)).last
  · exact .pure h

theorem expecting (he : S.Admits e) {t : Ty} (ht : S.L.types t) (w : Ledger) :
    Couples S w (p.left.expecting e t) (p.right.expecting e t)
      (Twins S (loadsPacked env.directives e)) :=
  (hp.raw he w).bind fun _ _ _ _ h => (Pair.coerce h ht).last

/-- Lowering to different types. -/
theorem expectingEach (he : S.Admits e) {t t' : Ty} (ht : S.L.types t) (ht' : S.L.types t')
    (w : Ledger) :
    Couples S w (p.left.expecting e t) (p.right.expecting e t')
      (fun w' n n' => TypedIn S.L w'.left n ∧ TypedIn S.L w'.right n') :=
  (hp.raw he w).bind fun _ _ _ _ h =>
    (Pair.coerceEach h.typedAlike.left h.typedAlike.right ht ht').last

theorem condition (he : S.Admits e) (w : Ledger) :
    Couples S w (p.left.condition e) (p.right.condition e)
      (Twins S (loadsPacked env.directives e)) :=
  hp.expecting he S.L.boolean w

theorem uncast (he : S.Admits e) (w : Ledger) :
    Couples S w (p.left.uncast e) (p.right.uncast e) (Twins S (loadsPacked env.directives e)) :=
  .withAutoCast (hp.raw he)

/-- The target of a member access. -/
theorem receiver (he : S.Admits e) (w : Ledger) :
    Couples S w (p.left.receiver e) (p.right.receiver e)
      (fun w' l r => Twin S.L w' (loadsPacked env.directives e) l r
        ∧ r.form.isDirect = false) := by
  refine (hp.raw he w).bind fun w₁ l r _ h => ?_
  refine Still.last (.reading fun c c' hc => ?_)
  exact ⟨h.locationOf hc.left hc.right, h.isDirect_locationOf hc.right⟩

end InStep

end Pair

/-! ### Wrappers -/

theorem eq_of_make {form : Form} {operands : List Node} {n : Node}
    (h : Node.make form operands = .ok n) : n = ⟨form, operands⟩ := by
  unfold Node.make at h
  cases hcount : form.checkCount operands.length with
  | error => rw [hcount] at h; cases h
  | ok =>
    cases hleast : form.checkLeast operands.length with
    | error => rw [hcount, hleast] at h; cases h
    | ok =>
      cases hwrapper : form.checkWrapper operands.head? with
      | error => rw [hcount, hleast, hwrapper] at h; cases h
      | ok =>
        rw [hcount, hleast, hwrapper] at h
        cases h
        rfl

theorem takeReference_of_isLocation (h : r.isLocation = true) :
    Node.takeReference r = .ok ⟨.takeReference, [r]⟩ := by
  obtain ⟨form, operands⟩ := r
  cases form <;> first | rfl | cases h

theorem memberReference_of_isDirect (f : Field) (h : r.form.isDirect = false) :
    Node.memberReference f r = .ok ⟨.memberReference f, [r]⟩ := by
  obtain ⟨form, operands⟩ := r
  cases form <;> first | rfl | cases h

theorem passByReference_of_ne (h : r.form ≠ .passByReference) :
    Node.passByReference r = .ok ⟨.passByReference, [r]⟩ := by
  obtain ⟨form, operands⟩ := r
  cases form <;> first | rfl | exact absurd rfl h

end

end ScriptLowering.Lowering
