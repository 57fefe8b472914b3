import ScriptLowering.Proofs.Lowering.ConstantConversion
import ScriptLowering.Proofs.Lowering.IndexOrder
import ScriptLowering.Proofs.Script.Counting

/-!
# How often an increment has the effects of its target

An increment by one and a decrement by one mention their target once. An increment by another amount
mentions it twice: it reads the target into a temporary and then adds to it. Only the indices of an
element of an array with several dimensions are hoisted before, so what is left of the target
(`repeatedPart`) is evaluated twice: the array of such an element, and any other location as a
whole.
-/

namespace ScriptLowering

open Script

namespace Script

/-- The forms of constants have no effect. -/
theorem Form.hasEffect_of_constancy {form : Form} (h : form.constancy ≠ .never) :
    form.hasEffect = false := by
  cases form with
  | unary op _ | binary op _ => exact Bool.eq_false_iff.mpr fun hop => h (if_pos hop)
  | _ => first | rfl | exact absurd rfl h

theorem Form.fixedArity?_of_always {form : Form} (h : form.constancy = .always) :
    form.fixedArity? = some 0 := by
  unfold constancy at h
  split at h
  case h_1 | h_2 | h_3 => rfl
  all_goals first | cases h | (split at h <;> cases h)

namespace Node

variable {n : Node} {derived : Prop} {vars : List Variable} {around : List Enclosure}

/-- Constants have no side effects. -/
theorem IsExpression.hasSideEffects_of_isConstant :
    n.IsExpression derived vars around → n.isConstant = true → n.hasSideEffects = false := by
  induction n using Node.induction with
  | step form operands ih =>
    intro hn hconstant
    rw [isConstant] at hconstant
    rw [hasSideEffects, Bool.or_eq_false_iff]
    cases hconstancy : form.constancy with
    | never =>
      rw [hconstancy] at hconstant
      cases hconstant
    | always =>
      -- A constant of its own has no operands.
      have hslots := hn.slots
      rw [Form.Takes, Form.fixedArity?_of_always hconstancy] at hslots
      obtain rfl := List.eq_nil_of_length_eq_zero hslots
      exact ⟨Form.hasEffect_of_constancy (hconstancy.trans_ne (by decide)), rfl⟩
    | whenOperandsAre =>
      rw [hconstancy] at hconstant
      refine ⟨Form.hasEffect_of_constancy (hconstancy.trans_ne (by decide)), ?_⟩
      rw [Bool.eq_false_iff]
      intro hany
      obtain ⟨o, ho, heffect⟩ := anySideEffects_iff.mp hany
      rw [ih o ho (hn.operand ho) (allConstant_iff.mp hconstant o ho)] at heffect
      cases heffect

end Node

end Script

namespace Lowering

open Node

variable {derived : Prop} {vars : List Variable} {around : List Enclosure}
  {m address location target : Node}

/-! ### Locations -/

/-- How a reference and the location that it designates are built. -/
inductive Designates : Node → Node → Prop where
  | taken {location : Node} : Designates ⟨.takeReference, [location]⟩ location
  | part {form form' : Form} {operands : List Node} : form.hasEffect = false →
    form'.hasEffect = false → Designates ⟨form, operands⟩ ⟨form', operands⟩
  | referent {form : Form} {address : Node} : form.hasEffect = false →
    Designates address ⟨form, [address]⟩
  | itself {n : Node} : Designates n n

theorem Located.designates {c : Core} {r : Retyping} (h : Located c r address location)
    (hslots : address.form.Takes address.operands.length) : Designates address location := by
  cases h with
  | taken =>
    obtain ⟨o, rfl⟩ := List.length_eq_one_iff.mp hslots
    exact .taken
  | member =>
    obtain ⟨o, rfl⟩ := List.length_eq_one_iff.mp hslots
    exact .part rfl rfl
  | @element _ operands =>
    have hsome : 2 ≤ operands.length := hslots
    cases operands with
    | nil => cases hsome
    | cons array indices => exact .part rfl rfl
  | declared | result | referent => exact .referent rfl
  | slot | itself => exact .itself

theorem Designates.timesIn_eq (h : Designates address location)
    (heffect : m.form.hasEffect = true) : m.timesIn [location] = m.timesIn [address] := by
  cases h with
  | taken => rw [timesIn_of_not_hasEffect heffect rfl]
  | part hform hform' =>
    rw [timesIn_of_not_hasEffect heffect hform, timesIn_of_not_hasEffect heffect hform']
  | referent hform => rw [timesIn_of_not_hasEffect heffect hform]
  | itself => rfl

theorem Designates.not_mem (h : Designates address location) (heffect : m.form.hasEffect = true)
    (hlocation : location ∈ m.operands) : m ∉ address.selfAndDescendants := by
  intro hm
  -- All but a reference that is taken are too small to hold it.
  have hless := length_selfAndDescendants_lt hlocation
  have hle := (selfAndDescendants_sublist hm).length_le
  cases h with
  | taken =>
    rw [selfAndDescendants_mk, List.flatMap_singleton] at hm
    rcases List.mem_cons.mp hm with rfl | hbelow
    · cases heffect
    · have hbelow := (selfAndDescendants_sublist hbelow).length_le
      omega
  | part =>
    rw [selfAndDescendants_mk, List.length_cons] at hless hle
    omega
  | @referent form =>
    have hreferent := length_selfAndDescendants_lt (n := ⟨form, [address]⟩) List.mem_cons_self
    omega
  | itself => omega

/-! ### Hoisted targets -/

/-- The part of a location that is evaluated with each use of it, once its indices are hoisted: the
array of an element with several indices, and else the location. -/
def repeatedPart : Node → Node
  | ⟨.elementAccess _, array :: _ :: _ :: _⟩ => array
  | n => n

theorem repeatedPart_mem (n : Node) : repeatedPart n ∈ n.selfAndDescendants := by
  unfold repeatedPart
  split
  · exact mem_selfAndDescendants_of_operand (self_mem_selfAndDescendants _) List.mem_cons_self
  · exact self_mem_selfAndDescendants _

/-- An index that stays has no effects. -/
theorem timesIn_of_isStableIndex {index : Node} (hindex : index.IsExpression derived vars around)
    (hstable : isStableIndex index = true) (heffect : m.form.hasEffect = true) :
    m.timesIn [index] = 0 := by
  cases hvar : index.var? with
  | none =>
    have hconstant : index.isConstant = true := by simpa [isStableIndex, hvar] using hstable
    exact timesIn_of_not_hasSideEffects heffect (hindex.hasSideEffects_of_isConstant hconstant)
  | some v =>
    obtain ⟨form, operands⟩ := index
    obtain rfl : form = .var v := Node.form_of_var? hvar
    obtain rfl : operands = [] := List.eq_nil_of_length_eq_zero hindex.slots
    exact timesIn_ofVariable heffect v

variable {prelude : List Node} {g : Lowerer} {n : Node}

theorem Hoists.timesIn {first last : Nat} {indices kept : List Node}
    (h : Hoists first last indices prelude kept)
    (hindices : ∀ i ∈ indices, i.IsExpression derived vars around)
    (heffect : m.form.hasEffect = true) (hbelow : m.VariablesBelow first) :
    m.timesIn prelude = m.timesIn indices ∧ m.timesIn kept = 0 := by
  induction h with
  | nil => exact ⟨rfl, rfl⟩
  | @stay first last index rest prelude kept hstable _ ih =>
    obtain ⟨hindex, hrest⟩ := List.forall_mem_cons.mp hindices
    obtain ⟨hprelude, hkept⟩ := ih hrest hbelow
    rw [timesIn_cons index rest, timesIn_cons index kept,
      timesIn_of_isStableIndex hindex hstable heffect, hprelude, hkept]
    exact ⟨(Nat.zero_add _).symm, rfl⟩
  | @move first last index rest prelude kept v type _ hv _ ih =>
    obtain ⟨hindex, hrest⟩ := List.forall_mem_cons.mp hindices
    obtain ⟨hprelude, hkept⟩ := ih hrest fun k hk w hw => Nat.lt_succ_of_lt (hbelow k hk w hw)
    -- The assignment mentions a temporary that the counted node does not.
    have hassignment : m.timesIn [.binary .assign (.ofVariable v) index type]
        = m.timesIn [.ofVariable v, index] := by
      refine timesIn_mk ?_
      rintro rfl
      have hlow := (variablesBelow_mk.mp hbelow).2 (.ofVariable v) List.mem_cons_self
      exact absurd (hlow _ (self_mem_selfAndDescendants _) v rfl) (hv ▸ Nat.lt_irrefl _)
    rw [timesIn_cons _ prelude, timesIn_cons _ kept, timesIn_cons index rest, hassignment,
      timesIn_cons _ [index], timesIn_ofVariable heffect, hprelude, hkept, Nat.zero_add]
    exact ⟨rfl, rfl⟩

theorem Hoists.eq_or_fresh {first last : Nat} {indices kept : List Node}
    (h : Hoists first last indices prelude kept) :
    kept = indices ∨ ∃ v, .ofVariable v ∈ kept ∧ first ≤ v.id := by
  induction h with
  | nil => exact .inl rfl
  | stay _ _ ih =>
    rcases ih with rfl | ⟨v, hv, hfresh⟩
    · exact .inl rfl
    · exact .inr ⟨v, List.mem_cons_of_mem _ hv, hfresh⟩
  | move _ hv _ _ => exact .inr ⟨_, List.mem_cons_self, hv ▸ Nat.le_refl _⟩

/-- What hoisting makes of a location, whose variables are below a bound: a prelude and a target
with the effects of the location, where those of the target are the ones of the repeated part, and
the target is the location or mentions a new variable. -/
structure Hoisted (bound : Nat) (location : Node) (prelude : List Node) (target : Node) : Prop where
  total : ∀ m : Node, m.form.hasEffect = true → m.VariablesBelow bound →
    m.timesIn prelude + m.timesIn [target] = m.timesIn [location]
  again : ∀ m : Node, m.form.hasEffect = true → m.VariablesBelow bound →
    m.timesIn [target] = m.timesIn [repeatedPart location]
  fresh : target = location ∨ ¬target.VariablesBelow bound

theorem hoisted_of_hoistIndices {s s' : State}
    (hlocation : location.IsExpression derived vars around)
    (hrun : (g.hoistIndices location).run s = (.ok (prelude, target), s')) :
    Hoisted s.context.scope.nextId location prelude target := by
  unfold Lowerer.hoistIndices at hrun
  split at hrun
  · next element array first second rest =>
    obtain ⟨prelude', kept, s₁, hhoist, hhoists⟩ := exists_hoists g (first :: second :: rest) s
    rw [run_bind_of_run hhoist] at hrun
    cases hrun
    have hindices : ∀ i ∈ first :: second :: rest, i.IsExpression derived vars around :=
      fun i hi => hlocation.operand (List.mem_cons_of_mem _ hi)
    have helement (m : Node) (heffect : m.form.hasEffect = true) (indices : List Node) :
        m.timesIn [.elementAccess element array indices]
          = m.timesIn [array] + m.timesIn indices := by
      rw [elementAccess, timesIn_of_not_hasEffect heffect rfl, timesIn_cons]
    refine ⟨fun m heffect hbelow => ?_, fun m heffect hbelow => ?_, ?_⟩
    · obtain ⟨hprelude, hkept⟩ := hhoists.timesIn hindices heffect hbelow
      have hbefore := helement m heffect (first :: second :: rest)
      rw [elementAccess] at hbefore
      rw [helement m heffect, hbefore, hprelude, hkept]
      omega
    · obtain ⟨-, hkept⟩ := hhoists.timesIn hindices heffect hbelow
      rw [helement m heffect, hkept]
      rfl
    · -- Either no index was moved, or the target mentions a new temporary.
      rcases hhoists.eq_or_fresh with hsame | ⟨v, hv, hfresh⟩
      · exact .inl (hsame ▸ rfl)
      · refine .inr fun hbelow => Nat.not_lt.mpr hfresh ?_
        have hv := (variablesBelow_mk.mp hbelow).2 (.ofVariable v) (List.mem_cons_of_mem _ hv)
        exact hv _ (self_mem_selfAndDescendants _) v rfl
  · next hother =>
    cases hrun
    have hwhole : repeatedPart location = location := by
      unfold repeatedPart
      split
      · exact (hother _ _ _ _ _ rfl).elim
      · rfl
    refine ⟨fun m _ _ => Nat.zero_add _, fun m _ _ => ?_, .inl rfl⟩
    rw [hwhole]

theorem Hoisted.not_mem {bound : Nat} (h : Hoisted bound location prelude target)
    (hdesignates : Designates address location) (haddress : address.VariablesBelow bound)
    (heffect : m.form.hasEffect = true) (htarget : target ∈ m.operands) :
    m ∉ address.selfAndDescendants := by
  intro hm
  rcases h.fresh with rfl | hfresh
  · exact hdesignates.not_mem heffect htarget hm
  · refine hfresh fun k hk => haddress k ?_
    obtain ⟨form, operands⟩ := m
    exact (selfAndDescendants_sublist hm).subset (mem_selfAndDescendants_of_operand hk htarget)

/-! ### Increments -/

/-- The increments of a target: a step in place, or by any other amount, with the old value kept in
a temporary. -/
inductive Increments (target : Node) (delta : Int64) : Node → Prop where
  | step {op : UnaryOp} {type : Ty} : delta = 1 ∨ delta = -1 →
    Increments target delta (.unary op target type)
  | keeping {v : Variable} {amount : Literal} {type type' : Ty} : ¬(delta = 1 ∨ delta = -1) →
    Increments target delta (.comma [.binary .assign (.ofVariable v) target type,
      .binary .addAssign target (.literal amount) type', .ofVariable v])

theorem Increments.timesIn {delta : Int64} (h : Increments target delta n)
    (heffect : m.form.hasEffect = true) (hnew : target ∉ m.operands) :
    m.timesIn [n]
      = m.timesIn [target] + if delta = 1 ∨ delta = -1 then 0 else m.timesIn [target] := by
  -- The counted node is none of those that have the target for an operand.
  have hother {form : Form} {operands : List Node} (htarget : target ∈ operands) :
      ⟨form, operands⟩ ≠ m := by
    rintro rfl
    exact hnew htarget
  cases h with
  | step hstep => rw [if_pos hstep, unary, timesIn_mk (hother List.mem_cons_self), Nat.add_zero]
  | @keeping v amount type type' hamount =>
    have hkeep : m.timesIn [.binary .assign (.ofVariable v) target type] = m.timesIn [target] := by
      rw [binary, timesIn_mk (hother (List.mem_cons_of_mem _ List.mem_cons_self)),
        timesIn_cons, timesIn_ofVariable heffect, Nat.zero_add]
    have hupdate : m.timesIn [.binary .addAssign target (.literal amount) type']
        = m.timesIn [target] := by
      rw [binary, timesIn_mk (hother List.mem_cons_self), timesIn_cons,
        timesIn_of_not_hasSideEffects heffect (n := .literal amount) rfl, Nat.add_zero]
    rw [if_neg hamount, timesIn_comma heffect, timesIn_cons, timesIn_cons _ [.ofVariable v], hkeep,
      hupdate, timesIn_ofVariable heffect, Nat.add_zero]

theorem yields_incrementBy {type : Ty} {delta : Int64} (hamount : ¬(delta = 1 ∨ delta = -1)) :
    Yields (g.incrementBy target type delta) (Increments target delta) := by
  refine Yields.newTemporary.bind fun old hold => ?_
  obtain ⟨v, rfl⟩ := hold
  refine Yields.assign.bind fun keep hkeep => Yields.compoundAssign.bind fun update hupdate => ?_
  obtain ⟨t, rfl⟩ := hkeep
  obtain ⟨t', rfl⟩ := hupdate
  exact .pure (.keeping hamount)

theorem exists_of_postIncrement {e : Cil.Expr} {s s' : State}
    (hrun : (g.postIncrement e).run s = (.ok n, s')) :
    ∃ delta a address s₁ prelude target s₂ increment,
      incrementDelta? e.operand = some delta ∧ e.arguments[0]? = some a
      ∧ (g.raw a).run s = (.ok address, s₁)
      ∧ (g.hoistIndices (locationOf g.core s₁.context.scope.retyping address)).run s₁
        = (.ok (prelude, target), s₂)
      ∧ Increments target delta increment ∧ n = afterPrelude prelude increment := by
  unfold Lowerer.postIncrement at hrun
  split at hrun
  · cases hrun
  · next delta hdelta =>
    obtain ⟨a, s₀, hargument, hrest⟩ := exists_run_of_bind hrun
    obtain ⟨ha, rfl⟩ := run_argument hargument
    obtain ⟨location, s₁, hreceiver, hrest⟩ := exists_run_of_bind hrest
    obtain ⟨address, s₁', haddress, hlocation⟩ := exists_run_of_bind hreceiver
    cases hlocation
    split at hrest
    · cases hrest
    · obtain ⟨⟨prelude, target⟩, s₂, hhoist, hrest⟩ := exists_run_of_bind hrest
      obtain ⟨type, s₃, htype, hrest⟩ := exists_run_of_bind hrest
      refine ⟨delta, a, address, s₁, prelude, target, s₂, ?_⟩
      -- Amounts of one are steps, in either direction; any other is an assignment.
      dsimp only at hrest
      split at hrest
      · next hone =>
        cases hrest
        exact ⟨_, hdelta, ha, haddress, hhoist, .step (.inl hone), rfl⟩
      · next hone =>
        split at hrest
        · next hminus =>
          cases hrest
          exact ⟨_, hdelta, ha, haddress, hhoist, .step (.inr hminus), rfl⟩
        · next hminus =>
          obtain ⟨increment, s₄, hincrement, hlast⟩ := exists_run_of_bind hrest
          cases hlast
          have hamount : ¬(delta = 1 ∨ delta = -1) := not_or.mpr ⟨hone, hminus⟩
          have hincrements := (yields_incrementBy hamount s₃).done_of_run hincrement
          exact ⟨increment, hdelta, ha, haddress, hhoist, hincrements, rfl⟩

theorem variablesBelow_of_isExpression {scope : Scope} (hscope : scope.WellFormed)
    (hn : n.IsExpression derived scope.allVariables around) : n.VariablesBelow scope.nextId := by
  refine HoldsIn.forall_descendants hn.2 fun around m hm v hv => hscope.numbered v ?_
  refine hm.mentions v ?_
  rw [Canonical.mentioned?, hv]

theorem timesIn_postIncrement (hg : g.Reliable False) {e : Cil.Expr} {s s' : State}
    (hscope : s.context.scope.WellFormed)
    (hrun : (g.postIncrement e).run s = (.ok n, s')) :
    ∃ delta a address s₁, incrementDelta? e.operand = some delta ∧ e.arguments[0]? = some a
      ∧ (g.raw a).run s = (.ok address, s₁)
      ∧ let location := locationOf g.core s₁.context.scope.retyping address
        (∀ m : Node, m.form.hasEffect = true → m.timesIn [location] = m.timesIn [address])
          ∧ ∀ m ∈ address.selfAndDescendants, m.form.hasEffect = true →
            m.timesIn [n] = m.timesIn [address]
              + if delta = 1 ∨ delta = -1 then 0 else m.timesIn [repeatedPart location] := by
  obtain ⟨delta, a, address, s₁, prelude, target, s₂, increment, hdelta, ha, haddress, hhoist,
    hincrement, rfl⟩ := exists_of_postIncrement hrun
  refine ⟨delta, a, address, s₁, hdelta, ha, haddress, ?_⟩
  intro location
  obtain ⟨⟨-, hadvances⟩, hvalue⟩ := (hg.raw a s False.elim).done_of_run haddress
  have hdesignates : Designates address location :=
    (located_locationOf ..).designates hvalue.expression.slots
  have hwellFormed := hadvances.scope.wellFormed hscope
  have hbelow := variablesBelow_of_isExpression hwellFormed hvalue.expression
  have hhoisted := hoisted_of_hoistIndices (hvalue.located (located_locationOf ..)).1.expression hhoist
  refine ⟨fun m => hdesignates.timesIn_eq, fun m hm heffect => ?_⟩
  -- An effect of the address mentions earlier variables only, and is none on the target.
  have hlow : m.VariablesBelow s₁.context.scope.nextId :=
    fun k hk => hbelow k ((selfAndDescendants_sublist hm).subset hk)
  have hnew : target ∉ m.operands :=
    fun htarget => hhoisted.not_mem hdesignates hbelow heffect htarget hm
  calc m.timesIn [afterPrelude prelude increment]
      = m.timesIn prelude + m.timesIn [increment] := by
        rw [afterPrelude, timesIn_comma heffect, timesIn_append]
    _ = m.timesIn prelude + m.timesIn [target]
          + if delta = 1 ∨ delta = -1 then 0 else m.timesIn [target] := by
        rw [hincrement.timesIn heffect hnew, Nat.add_assoc]
    _ = m.timesIn [address]
          + if delta = 1 ∨ delta = -1 then 0 else m.timesIn [repeatedPart location] := by
        rw [hhoisted.total m heffect hlow, hhoisted.again m heffect hlow,
          hdesignates.timesIn_eq heffect]

/-- An increment that is lowered has each effect of its address as often as the address, and, if its
amount is neither one nor minus one, once more for each time that the repeated part has it. So each
effect occurs once exactly if the amount is one or minus one or the repeated part has none. -/
theorem increment_effects_once_iff (env : Env) (method : Method) (levels : Nat) {e : Cil.Expr}
    (hcode : e.code = .postIncrement) {s s' : State} {n : Node}
    (hscope : s.context.scope.WellFormed)
    (hrun : (((⟨env, method, lowerUpTo env method levels⟩ : Lowerer).apply e
        (ruleOf e.code)).run s : Except Error Node × State) = (.ok n, s')) :
    ∃ delta a address s₁, incrementDelta? e.operand = some delta ∧ e.arguments[0]? = some a
      ∧ ((lowerUpTo env method levels a).run s : Except Error Node × State) = (.ok address, s₁)
      ∧ let repeated := repeatedPart (locationOf env.core s₁.context.scope.retyping address)
        (∀ m ∈ address.selfAndDescendants, m.form.hasEffect = true →
            m.timesIn [n] = m.timesIn [address]
              + if delta = 1 ∨ delta = -1 then 0 else m.timesIn [repeated])
          ∧ ((∀ m ∈ address.selfAndDescendants, m.form.hasEffect = true →
              m.timesIn [n] = m.timesIn [address])
            ↔ delta = 1 ∨ delta = -1 ∨ repeated.hasSideEffects = false) := by
  have hg : Lowerer.Reliable False ⟨env, method, lowerUpTo env method levels⟩ :=
    ⟨False.elim, ensures_lowerUpTo False.elim method levels⟩
  rw [hcode] at hrun
  obtain ⟨delta, a, address, s₁, hdelta, ha, haddress, hlocation, hcount⟩ :=
    timesIn_postIncrement hg hscope hrun
  refine ⟨delta, a, address, s₁, hdelta, ha, haddress, ?_⟩
  intro repeated
  replace hcount : ∀ m ∈ address.selfAndDescendants, m.form.hasEffect = true →
      m.timesIn [n] = m.timesIn [address]
        + if delta = 1 ∨ delta = -1 then 0 else m.timesIn [repeated] := hcount
  refine ⟨hcount, ?_⟩
  rw [← or_assoc]
  constructor
  · intro honce
    refine or_iff_not_imp_left.mpr fun hamount => Bool.eq_false_iff.mpr fun heffects => ?_
    -- An effect of the repeated part is one of the address, and is had once more.
    obtain ⟨m, hm, heffect⟩ := hasSideEffects_iff.mp heffects
    have hmem : m ∈ address.selfAndDescendants := by
      rw [← timesIn_pos_iff, ← hlocation m heffect, timesIn_pos_iff]
      exact (selfAndDescendants_sublist (repeatedPart_mem _)).subset hm
    have htwice := hcount m hmem heffect
    rw [honce m hmem heffect, if_neg hamount] at htwice
    have hpos : 0 < m.timesIn [repeated] := timesIn_pos_iff.mpr hm
    omega
  · intro hcase m hm heffect
    rw [hcount m hm heffect]
    rcases hcase with hstep | hnone
    · rw [if_pos hstep, Nat.add_zero]
    · rw [timesIn_of_not_hasSideEffects heffect hnone, ite_self, Nat.add_zero]

/-! ### Effects had once and twice -/

/-- A static method without parameters. -/
def staticMethod (name : String) (type : Ty) : Method :=
  ⟨name, Canonical.widget, type, [], [], { MethodFlags.empty with isStatic := true }⟩

/-- The call of a static method without parameters. -/
def staticCall (name : String) (type : Ty) : Cil.Expr :=
  .plain .call (.method (staticMethod name type)) []

/-- An increment by an amount. -/
def incremented (address : Cil.Expr) (amount : Int32) : Cil.Expr :=
  .plain .postIncrement (.int32 amount) [address]

/-- The address of an element of a grid, at an index that is called for. -/
def nextOfGrid : Cil.Expr :=
  .plain .ldelemaMd (.type Core.standard.int32)
    [loadOf "grid" (.array Core.standard.int32 2), staticCall "Next" Core.standard.int32,
      .plain .ldcI4 (.int32 1) []]

/-- Whether the repeated part of the location has side effects, after a run that answers an
address. -/
def repeatedEffects? (result : Except Error Node × State) : Option Bool :=
  result.1.toOption.map fun address =>
    (repeatedPart (locationOf .standard result.2.context.scope.retyping address)).hasSideEffects

/-- A called index of a grid is called once, whatever the amount. -/
theorem called_index_once :
    let e := incremented nextOfGrid 4
    ∃ n s' address s₁, loweredTo e = (.ok n, s') ∧ operandLoweredTo e nextOfGrid = (.ok address, s₁)
      ∧ address.hasSideEffects = true
      ∧ ∀ m ∈ address.selfAndDescendants, m.form.hasEffect = true →
        m.timesIn [n] = m.timesIn [address] := by
  intro e
  have heffects : (operandLoweredTo e nextOfGrid).1.toOption.map hasSideEffects = some true := by
    decide +kernel
  have hrepeated : repeatedEffects? (operandLoweredTo e nextOfGrid) = some false := by
    decide +kernel
  have hlowered : (loweredTo e).1.toOption.isSome = true := by decide +kernel
  rcases hrun : loweredTo e with ⟨_ | n, s'⟩ <;> rw [hrun] at hlowered
  · cases hlowered
  · obtain ⟨delta, a, address, s₁, _, ha, haddress, _, honce⟩ :=
      increment_effects_once_iff plainEnv _ _ rfl Scope.wellFormed_empty hrun
    cases ha
    have haddress : operandLoweredTo e nextOfGrid = (.ok address, s₁) := haddress
    rw [haddress] at heffects hrepeated
    refine ⟨n, s', address, s₁, rfl, haddress, Option.some.inj heffects, honce.mpr ?_⟩
    exact .inr (.inr (Option.some.inj hrepeated))

/-- A field of what a call makes, in an increment by four: the call occurs once in the address and
twice in the increment. -/
theorem call_repeated :
    let count : Field := ⟨"Count", Canonical.widget, Core.standard.int32, false, none⟩
    let address : Cil.Expr := .plain .ldflda (.field count) [staticCall "Make" Canonical.widget]
    let call : Node := .invocation (staticMethod "Make" Canonical.widget) .static false .empty []
    call.form.hasEffect = true
      ∧ ∃ n s' reference s₁, loweredTo (incremented address 4) = (.ok n, s')
        ∧ operandLoweredTo (incremented address 4) address = (.ok reference, s₁)
        ∧ call.timesIn [reference] = 1 ∧ call.timesIn [n] = 2 := by
  intro count address call
  have hcall : call.timesIn [call] = 1 := by
    simp [timesIn, call, invocation, selfAndDescendants_mk, empty]
  have hreference : call.timesIn [⟨.memberReference count, [call]⟩] = 1 :=
    (timesIn_of_not_hasEffect rfl rfl).trans hcall
  have htarget : call.timesIn [.fieldAccess count call] = 1 :=
    (timesIn_of_not_hasEffect rfl rfl).trans hcall
  have hlowered : (loweredTo (incremented address 4)).1.toOption.isSome = true := by decide +kernel
  rcases hrun : loweredTo (incremented address 4) with ⟨_ | n, s'⟩ <;> rw [hrun] at hlowered
  · cases hlowered
  · have hg : (plainLowerer (incremented address 4)).Reliable False :=
      reliable_ofMethod False.elim _
    obtain ⟨_, _, _, s₁, hdelta, ha, haddress, _, hcount⟩ :=
      timesIn_postIncrement (e := incremented address 4) (s := ⟨.start true 512, .start⟩) hg
        Scope.wellFormed_empty hrun
    cases hdelta
    cases ha
    cases haddress
    refine ⟨rfl, n, s', ⟨.memberReference count, [call]⟩, _, rfl, rfl, hreference, ?_⟩
    have hmem : call ∈ selfAndDescendants ⟨.memberReference count, [call]⟩ :=
      timesIn_pos_iff.mp (by rw [hreference]; exact Nat.one_pos)
    refine (hcount call hmem rfl).trans ?_
    rw [if_neg (by decide)]
    exact congr_arg₂ (· + ·) hreference htarget

end Lowering

end ScriptLowering
