import ScriptLowering.Proofs.Lowering.IncrementEffects
import ScriptLowering.Proofs.Lowering.VariableTable
import ScriptLowering.Proofs.Script.PreOrder

/-!
# Lifted operations test what they unwrap

A lifted operation unwraps nullable values. Those that are below no choice and no other value that
is wrapped or unwrapped (`Node.Exposed`) are found from left to right (`Node.unwrapPaths`), and each
is held in a variable: its own if it is one, and else a new temporary (`Held`). Lifting puts the
variables in place of the values, assigns the temporaries in front, and tests all variables for
absence, in order.
-/

namespace ScriptLowering

open Script

variable {ns : List Node}

namespace Script

/-- The forms below which nothing is lifted: choices, and nullable values that are wrapped or
unwrapped. -/
def Form.shelters : Form → Bool
  | ternary _ | nullableWrap _ | nullableUnwrap _ => true
  | _ => false

theorem Form.eq_of_shelters {form : Form} (h : form.shelters = true) :
    (∃ type, form = nullableUnwrap type) ∨ (∃ type, form = ternary type)
      ∨ ∃ type, form = nullableWrap type := by
  unfold shelters at h
  split at h
  · exact .inr (.inl ⟨_, rfl⟩)
  · exact .inr (.inr ⟨_, rfl⟩)
  · exact .inl ⟨_, rfl⟩
  · cases h

namespace Node

variable {form : Form} {operands : List Node}

/-! ### Paths -/

/-- The tree with another node at a path. -/
def setAt (n new : Node) : List Nat → Node
  | [] => new
  | slot :: path => ⟨n.form, n.operands.modify slot fun o => o.setAt new path⟩

/-- The tree with other nodes for the first operands of the nodes at some paths. -/
def withFirsts (n : Node) (paths : List (List Nat)) (news : List Node) : Node :=
  (paths.zip news).foldl (fun n new => n.setAt new.2 (new.1 ++ [0])) n

theorem setAt_slot (before after : List Node) (o new : Node) (path : List Nat) :
    setAt ⟨form, before ++ o :: after⟩ new (before.length :: path)
      = ⟨form, before ++ o.setAt new path :: after⟩ := by
  rw [setAt, List.modify_eq_take_drop, List.take_left, List.drop_left]
  rfl

variable {paths : List (List Nat)}

theorem withFirsts_append (n : Node) {paths' : List (List Nat)} {news news' : List Node}
    (hlength : paths.length = news.length) :
    n.withFirsts (paths ++ paths') (news ++ news')
      = (n.withFirsts paths news).withFirsts paths' news' := by
  rw [withFirsts, List.zip_append hlength, List.foldl_append]
  rfl

theorem withFirsts_slot (before after : List Node) (o : Node) (paths : List (List Nat))
    (news : List Node) :
    withFirsts ⟨form, before ++ o :: after⟩ (paths.map (before.length :: ·)) news
      = ⟨form, before ++ o.withFirsts paths news :: after⟩ := by
  induction paths generalizing o news with
  | nil => rfl
  | cons path paths ih =>
    cases news with
    | nil => rfl
    | cons new news =>
      simp only [withFirsts, List.map_cons, List.zip_cons_cons, List.foldl_cons, List.cons_append]
        at ih ⊢
      rw [setAt_slot, ih]

/-! ### Exposed unwrappings -/

/-- At a path a value is unwrapped, below no choice and no other value that is wrapped or
unwrapped. -/
structure Exposed (n : Node) (path : List Nat) : Prop where
  unwraps : ∃ type operands, n.at? path = some ⟨.nullableUnwrap type, operands⟩
  unsheltered : ∀ above, above <+: path → above ≠ path → ∀ m, n.at? above = some m →
    m.form.shelters = false

mutual

/-- The paths of the exposed unwrappings, from left to right. -/
def unwrapPaths : Node → List (List Nat)
  | ⟨form, operands⟩ =>
    match form with
    | .nullableUnwrap _ => [[]]
    | .ternary _ | .nullableWrap _ => []
    | _ => unwrapPathsFrom 0 operands

/-- The paths of the exposed unwrappings in operands, from a slot on. -/
def unwrapPathsFrom : Nat → List Node → List (List Nat)
  | _, [] => []
  | slot, n :: rest => n.unwrapPaths.map (slot :: ·) ++ unwrapPathsFrom (slot + 1) rest

end

theorem exposed_nil : Exposed ⟨form, operands⟩ [] ↔ ∃ type, form = .nullableUnwrap type := by
  constructor
  · rintro ⟨⟨type, _, h⟩, -⟩
    cases h
    exact ⟨type, rfl⟩
  · rintro ⟨type, rfl⟩
    exact ⟨⟨type, operands, rfl⟩, fun above habove hne =>
      absurd (List.prefix_nil.mp habove) hne⟩

variable {path : List Nat}

theorem exposed_cons {slot : Nat} :
    Exposed ⟨form, operands⟩ (slot :: path)
      ↔ form.shelters = false ∧ ∃ o, operands[slot]? = some o ∧ o.Exposed path := by
  constructor
  · rintro ⟨⟨type, below, hat⟩, hopen⟩
    obtain ⟨o, ho, hat⟩ := Option.bind_eq_some_iff.mp hat
    refine ⟨hopen [] List.nil_prefix (by simp) _ rfl, o, ho, ⟨type, below, hat⟩, ?_⟩
    intro above habove hne m hm
    refine hopen (slot :: above) (List.cons_prefix_cons.mpr ⟨rfl, habove⟩) (by simpa using hne) m ?_
    exact Option.bind_eq_some_iff.mpr ⟨o, ho, hm⟩
  · rintro ⟨hform, o, ho, ⟨type, below, hat⟩, hopen⟩
    refine ⟨⟨type, below, Option.bind_eq_some_iff.mpr ⟨o, ho, hat⟩⟩, ?_⟩
    intro above habove hne m hm
    cases above with
    | nil =>
      cases hm
      exact hform
    | cons slot' above =>
      obtain ⟨rfl, hbelow⟩ := List.cons_prefix_cons.mp habove
      obtain ⟨o', ho', hm⟩ := Option.bind_eq_some_iff.mp hm
      obtain rfl : o = o' := Option.some.inj (ho.symm.trans ho')
      exact hopen above hbelow (by simpa using hne) m hm

theorem unwrapPathsFrom_eq (first : Nat) :
    unwrapPathsFrom first ns = slotPaths unwrapPaths first ns := by
  induction ns generalizing first with
  | nil => rfl
  | cons n ns ih => rw [unwrapPathsFrom, slotPaths, ih]

theorem unwrapPaths_of_open (hform : form.shelters = false) :
    unwrapPaths ⟨form, operands⟩ = unwrapPathsFrom 0 operands := by
  unfold unwrapPaths
  split <;> first | cases hform | rfl

theorem mem_unwrapPaths_iff {n : Node} : path ∈ n.unwrapPaths ↔ n.Exposed path := by
  induction n using Node.induction generalizing path with
  | step form operands ih =>
    cases hform : form.shelters with
    | false =>
      rw [unwrapPaths_of_open hform, unwrapPathsFrom_eq, mem_slotPaths]
      cases path with
      | nil =>
        rw [exposed_nil]
        constructor
        · rintro ⟨_, _, _, _, _, heq⟩
          cases heq
        · rintro ⟨type, rfl⟩
          cases hform
      | cons slot path =>
        rw [exposed_cons]
        constructor
        · rintro ⟨i, o, rest, ho, hrest, heq⟩
          obtain ⟨hslot, rfl⟩ := List.cons.inj heq
          rw [Nat.zero_add] at hslot
          exact ⟨hform, o, hslot ▸ ho, (ih o (List.mem_of_getElem? ho)).mp hrest⟩
        · rintro ⟨-, o, ho, hpath⟩
          have hmem := (ih o (List.mem_of_getElem? ho)).mpr hpath
          exact ⟨slot, o, path, ho, hmem, by rw [Nat.zero_add]⟩
    | true =>
      -- A form that shelters ends the search, so only its own path can be exposed.
      have hcons : ∀ slot path, ¬Exposed ⟨form, operands⟩ (slot :: path) := by
        intro slot path hexposed
        rw [exposed_cons, hform] at hexposed
        cases hexposed.1
      rcases Form.eq_of_shelters hform with ⟨type, rfl⟩ | ⟨type, rfl⟩ | ⟨type, rfl⟩
      all_goals
        cases path with
        | nil => simp [unwrapPaths, exposed_nil]
        | cons slot path => simp [unwrapPaths, hcons]

/-- The paths are found from left to right. -/
theorem pairwise_unwrapPaths (n : Node) : n.unwrapPaths.Pairwise (· < ·) := by
  induction n using Node.induction with
  | step form operands ih =>
    cases hform : form.shelters with
    | false =>
      rw [unwrapPaths_of_open hform, unwrapPathsFrom_eq]
      exact pairwise_slotPaths ih 0
    | true =>
      rcases Form.eq_of_shelters hform with ⟨type, rfl⟩ | ⟨type, rfl⟩ | ⟨type, rfl⟩ <;>
        simp [unwrapPaths]

/-- At a path a node is unwrapped. -/
def Unwraps (n : Node) (path : List Nat) (operand : Node) : Prop :=
  ∃ type, n.at? path = some ⟨.nullableUnwrap type, [operand]⟩

theorem forall₂_unwraps_slot {before after xs : List Node} {o : Node}
    (h : List.Forall₂ o.Unwraps paths xs) :
    List.Forall₂ (Unwraps ⟨form, before ++ o :: after⟩) (paths.map (before.length :: ·)) xs := by
  rw [List.forall₂_map_left_iff]
  refine h.imp ?_
  rintro path x ⟨type, hat⟩
  exact ⟨type, (at?_slot before after o path).trans hat⟩

end Node

end Script

namespace Lowering

open Node

variable {c : Core} {r : Retyping} {s s' s'' : Table} {xs xs' vs vs' : List Node}

/-! ### Operands held in variables -/

/-- How operands are held, as one table becomes another: a variable holds itself, and any other
operand is held by the next new temporary of its type. -/
inductive Held (c : Core) (r : Retyping) : Table → Table → List Node → List Node → Prop
  | nil {s : Table} : Held c r s s [] []
  | stay {s s' : Table} {x : Node} {xs vs : List Node} :
    x.var?.isSome = true → Held c r s s' xs vs → Held c r s s' (x :: xs) (x :: vs)
  | move {s s' : Table} {x : Node} {xs vs : List Node} :
    x.var?.isSome = false → Held c r (s.newTemporary (x.computedType c r)).2 s' xs vs →
    Held c r s s' (x :: xs) (.ofVariable (s.newTemporary (x.computedType c r)).1 :: vs)

/-- The new temporaries among what holds operands. -/
def temporariesOf (xs vs : List Node) : List Variable :=
  (xs.zip vs).filterMap fun held => if held.1.var?.isSome then none else held.2.var?

variable {x : Node}

theorem temporariesOf_stay (hvar : x.var?.isSome = true) (v : Node) :
    temporariesOf (x :: xs) (v :: vs) = temporariesOf xs vs := by
  simp only [temporariesOf, List.zip_cons_cons, List.filterMap_cons, if_pos hvar]

theorem temporariesOf_move (hvar : x.var?.isSome = false) (t : Variable) :
    temporariesOf (x :: xs) (.ofVariable t :: vs) = t :: temporariesOf xs vs := by
  simp only [temporariesOf, List.zip_cons_cons, List.filterMap_cons, hvar]
  rfl

/-- The assignments of operands to what holds them, and the tests of what holds them. -/
def Lifts.holding (c : Core) (r : Retyping) (xs vs : List Node) : Lifts where
  prelude := (xs.zip vs).filterMap fun held =>
    if held.1.var?.isSome then none
    else some (.binary .assign held.2 held.1 (held.1.computedType c r))
  checks := (xs.zip vs).map fun held =>
    .binary .equal held.2 (.nullOf (held.1.computedType c r)) c.boolean

theorem Lifts.holding_append (hlength : xs.length = vs.length) :
    Lifts.holding c r (xs ++ xs') (vs ++ vs')
      = (Lifts.holding c r xs vs).append (Lifts.holding c r xs' vs') := by
  simp only [Lifts.holding, Lifts.append, List.zip_append hlength, List.filterMap_append,
    List.map_append]

/-- Variables that a scope has gained as temporaries: under names that were free, with numbers from
the next one on, and told apart by names and by numbers. -/
structure Fresh (s s' : Scope) (ts : List Variable) : Prop where
  gained : s'.temporaries = s.temporaries ++ ts
  free : ∀ t ∈ ts, ∀ w ∈ s.allVariables, w.name ≠ t.name
  above : ∀ t ∈ ts, s.nextId ≤ t.id
  names : (ts.map (·.name)).Nodup
  ids : (ts.map (·.id)).Nodup

theorem fresh_nil (s : Scope) : Fresh s s [] where
  gained := (List.append_nil _).symm
  free := fun _ ht => absurd ht List.not_mem_nil
  above := fun _ ht => absurd ht List.not_mem_nil
  names := List.nodup_nil
  ids := List.nodup_nil

variable {ts : List Variable}

theorem Fresh.cons {type : Ty} (h : Fresh (s.newTemporary type).2.toScope s'.toScope ts) :
    Fresh s.toScope s'.toScope ((s.newTemporary type).1 :: ts) := by
  obtain ⟨hmem, hgrows⟩ := s.newTemporary_spec type
  have hadds := s.adds_newTemporary type
  refine ⟨?_, ?_, ?_, ?_, ?_⟩
  · rw [h.gained, List.append_cons]
    rfl
  · exact List.forall_mem_cons.mpr ⟨hadds.free, fun t ht w hw => h.free t ht w (hgrows.subset hw)⟩
  · exact List.forall_mem_cons.mpr ⟨Nat.le_refl _, fun t ht => Nat.le_of_succ_le (h.above t ht)⟩
  · rw [List.map_cons, List.nodup_cons]
    refine ⟨fun hname => ?_, h.names⟩
    obtain ⟨t, ht, heq⟩ := List.mem_map.mp hname
    exact h.free t ht _ hmem heq.symm
  · rw [List.map_cons, List.nodup_cons]
    refine ⟨fun hid => ?_, h.ids⟩
    obtain ⟨t, ht, heq⟩ := List.mem_map.mp hid
    exact absurd (heq ▸ h.above t ht) (Nat.not_succ_le_self _)

/-- What holds an operand: the operand, if it is a variable, and else one of some temporaries, of
the type of the operand. -/
def HolderIn (c : Core) (r : Retyping) (ts : List Variable) (x v : Node) : Prop :=
  (x.var?.isSome = true ∧ v = x)
    ∨ (x.var?.isSome = false ∧ ∃ t ∈ ts, v = .ofVariable t ∧ t.kind = .temporary
      ∧ t.declaredType = x.computedType c r)

theorem HolderIn.mono {ts' : List Variable} {v : Node} (h : HolderIn c r ts x v) (hts : ts ⊆ ts') :
    HolderIn c r ts' x v := by
  rcases h with hstay | ⟨hvar, t, ht, hv⟩
  · exact .inl hstay
  · exact .inr ⟨hvar, t, hts ht, hv⟩

namespace Held

variable (h : Held c r s s' xs vs)
include h

theorem length_eq : xs.length = vs.length := by
  induction h with
  | nil => rfl
  | stay _ _ ih | move _ _ ih => exact congrArg (· + 1) ih

theorem append (h' : Held c r s' s'' xs' vs') : Held c r s s'' (xs ++ xs') (vs ++ vs') := by
  induction h with
  | nil => exact h'
  | stay hvar _ ih => exact .stay hvar (ih h')
  | move hvar _ ih => exact .move hvar (ih h')

/-- Later types are as before. -/
theorem retyping_eq : s'.retyping = s.retyping := by
  induction h with
  | nil => rfl
  | stay _ _ ih => exact ih
  | move _ _ ih => exact ih

theorem fresh : Fresh s.toScope s'.toScope (temporariesOf xs vs) := by
  induction h with
  | nil => exact fresh_nil _
  | stay hvar _ ih =>
    rw [temporariesOf_stay hvar]
    exact ih
  | move hvar _ ih =>
    rw [temporariesOf_move hvar]
    exact ih.cons

theorem forall₂ : List.Forall₂ (HolderIn c r (temporariesOf xs vs)) xs vs := by
  induction h with
  | nil => exact .nil
  | stay hvar _ ih =>
    rw [temporariesOf_stay hvar]
    exact .cons (.inl ⟨hvar, rfl⟩) ih
  | move hvar _ ih =>
    rw [temporariesOf_move hvar]
    refine .cons (.inr ⟨hvar, _, List.mem_cons_self, rfl, rfl, rfl⟩) (ih.imp ?_)
    exact fun x v hv => hv.mono (List.subset_cons_self _ _)

end Held

/-! ### Lifting -/

section

variable (g : Lowerer) {r : Retyping}

/-- The state with other variables. -/
def State.withTable (s : State) (table : Table) : State :=
  { s with context := { s.context with table } }

theorem exists_run_liftOperand (x : Node) (s : State) (hr : s.context.scope.retyping = r) :
    ∃ table v, (g.liftOperand x).run s
        = (.ok (v, .holding g.core r [x] [v]), s.withTable table)
      ∧ Held g.core r s.context.table table [x] [v] := by
  unfold Lowerer.liftOperand
  rw [run_bind_of_run (run_typeOf g x s), hr]
  cases hvar : x.var?.isSome with
  | true =>
    refine ⟨s.context.table, x, ?_, .stay hvar .nil⟩
    simp [Lifts.holding, hvar]
    rfl
  | false =>
    refine ⟨_, _, ?_, .move hvar .nil⟩
    rw [if_neg Bool.false_ne_true, run_bind_of_run (run_newTemporary _ s)]
    simp [Lifts.holding, hvar]
    rfl

theorem liftIn_of_open {form : Form} (hform : form.shelters = false) (operands : List Node) :
    g.liftIn ⟨form, operands⟩ = do
      let (operands, lifts) ← g.liftInAll operands
      return (⟨form, operands⟩, lifts) := by
  unfold Lowerer.liftIn
  split <;> first | cases hform | rfl

/-- Lifting in a tree answers: what is unwrapped there is held, and what holds it takes its
place. -/
def LiftsIn (g : Lowerer) (r : Retyping) (n : Node) : Prop :=
  ∀ s : State, s.context.scope.retyping = r → ∃ table xs vs,
    ((g.liftIn n).run s : Except Error (Node × Lifts) × State)
        = (.ok (n.withFirsts n.unwrapPaths vs, .holding g.core r xs vs), s.withTable table)
      ∧ List.Forall₂ n.Unwraps n.unwrapPaths xs ∧ Held g.core r s.context.table table xs vs

theorem exists_run_liftInAll (hns : ∀ n ∈ ns, LiftsIn g r n) (s : State)
    (hr : s.context.scope.retyping = r) : ∃ table xs vs ns',
      (g.liftInAll ns).run s
          = (.ok (ns', .holding g.core r xs vs), s.withTable table)
        ∧ Held g.core r s.context.table table xs vs
        ∧ ∀ (form : Form) (before : List Node),
          List.Forall₂ (Unwraps ⟨form, before ++ ns⟩) (unwrapPathsFrom before.length ns) xs
            ∧ withFirsts ⟨form, before ++ ns⟩ (unwrapPathsFrom before.length ns) vs
              = ⟨form, before ++ ns'⟩ := by
  induction ns generalizing s with
  | nil => exact ⟨s.context.table, [], [], [], rfl, .nil, fun _ _ => ⟨.nil, rfl⟩⟩
  | cons n ns ih =>
    obtain ⟨hn, hrest⟩ := List.forall_mem_cons.mp hns
    obtain ⟨table₁, xs₁, vs₁, hrun₁, hat₁, hheld₁⟩ := hn s hr
    obtain ⟨table₂, xs₂, vs₂, ns', hrun₂, hheld₂, htree⟩ :=
      ih hrest (s.withTable table₁) (hheld₁.retyping_eq.trans hr)
    refine ⟨table₂, xs₁ ++ xs₂, vs₁ ++ vs₂, n.withFirsts n.unwrapPaths vs₁ :: ns', ?_,
      hheld₁.append hheld₂, fun form before => ?_⟩
    · unfold Lowerer.liftInAll
      rw [run_bind_of_run hrun₁, run_bind_of_run hrun₂, Lifts.holding_append hheld₁.length_eq]
      rfl
    · rw [unwrapPathsFrom]
      -- The slot of the first operand is filled, and then those after it.
      have hlength : (n.unwrapPaths.map (before.length :: ·)).length = vs₁.length := by
        rw [List.length_map, hat₁.length_eq, hheld₁.length_eq]
      obtain ⟨hat₂, -⟩ := htree form (before ++ [n])
      obtain ⟨-, htree₂⟩ := htree form (before ++ [n.withFirsts n.unwrapPaths vs₁])
      rw [List.length_append, List.append_assoc] at hat₂ htree₂
      refine ⟨List.rel_append (forall₂_unwraps_slot hat₁) hat₂, ?_⟩
      rw [withFirsts_append _ hlength, withFirsts_slot]
      rw [List.append_assoc] at htree₂
      exact htree₂

theorem liftsIn_of_isExpression {derived : Prop} {vars : List Variable} {around : List Enclosure}
    {n : Node} (hn : n.IsExpression derived vars around) : LiftsIn g r n := by
  induction n using Node.induction with
  | step form operands ih =>
    intro s hr
    cases hform : form.shelters with
    | false =>
      have hoperands : ∀ o ∈ operands, LiftsIn g r o := fun o ho => ih o ho (hn.operand ho)
      obtain ⟨table, xs, vs, ns', hrun, hheld, htree⟩ := exists_run_liftInAll g hoperands s hr
      obtain ⟨hat, hplaced⟩ := htree form []
      refine ⟨table, xs, vs, ?_, ?_, hheld⟩
      · have hplaced : withFirsts ⟨form, operands⟩ (unwrapPathsFrom 0 operands) vs = ⟨form, ns'⟩ :=
          hplaced
        rw [liftIn_of_open g hform, run_bind_of_run hrun, unwrapPaths_of_open hform, hplaced]
        rfl
      · rw [unwrapPaths_of_open hform]
        exact hat
    | true =>
      rcases Form.eq_of_shelters hform with ⟨type, rfl⟩ | ⟨type, rfl⟩ | ⟨type, rfl⟩
      · -- There is one operand to unwrap.
        obtain ⟨x, rfl⟩ := List.length_eq_one_iff.mp hn.slots
        obtain ⟨table, v, hrun, hheld⟩ := exists_run_liftOperand g x s hr
        refine ⟨table, [x], [v], ?_, .cons ⟨type, rfl⟩ .nil, hheld⟩
        unfold Lowerer.liftIn
        rw [run_bind_of_run hrun]
        rfl
      all_goals exact ⟨s.context.table, [], [], rfl, .nil, .nil⟩

end

theorem Held.exists_checks (h : Held c r s s' xs vs) (hxs : xs ≠ []) :
    ∃ check checks, (Lifts.holding c r xs vs).checks = check :: checks := by
  cases h with
  | nil => exact absurd rfl hxs
  | stay | move => exact ⟨_, _, rfl⟩

theorem lifted_of_checks {lifts : Lifts} {check : Node} {checks : List Node}
    (h : lifts.checks = check :: checks) (op : Node) (type : Ty) :
    lifted c op lifts type = .comma (lifts.prelude ++ [.ternary
      (checks.foldl (.binary .logicalOr · · c.boolean) check) (.nullOf type)
      ⟨.nullableWrap type, [op]⟩ type]) := by
  rw [lifted, h]
  rfl

/-- The operand of a lifted operation is lowered to a tree. The unwrappings that are exposed in it,
from left to right, have operands that are held: variables by themselves, and others by temporaries
that are new to the scope and to the tree. If there are none, the tree is wrapped. Otherwise the
temporaries are assigned in order, and then a choice follows: if one of what holds the operands is
absent, tested in order, the result is absent, and else it is the tree, with what holds the operands
in their place, wrapped. -/
theorem lifted_operands_tested (env : Env) (method : Method) (levels : Nat) {e a : Cil.Expr}
    (hcode : e.code = .nullableOf) (ha : e.arguments[0]? = some a) {s s₁ : State} {op : Node}
    (hop : (((⟨env, method, lowerUpTo env method levels⟩ : Lowerer).expression a).run s :
        Except Error Node × State) = (.ok op, s₁)) :
    let scope := s₁.context.scope
    let type := liftedType env.core e.inferred? (op.computedType env.core scope.retyping)
    (op.unwrapPaths.Pairwise (· < ·) ∧ ∀ path, path ∈ op.unwrapPaths ↔ op.Exposed path)
      ∧ ∃ n s' operands holders,
        (((⟨env, method, lowerUpTo env method levels⟩ : Lowerer).apply e (ruleOf e.code)).run s :
            Except Error Node × State) = (.ok n, s')
          ∧ List.Forall₂ op.Unwraps op.unwrapPaths operands
          ∧ let temporaries := temporariesOf operands holders
            let lifts := Lifts.holding env.core scope.retyping operands holders
            List.Forall₂ (HolderIn env.core scope.retyping temporaries) operands holders
              ∧ Fresh scope s'.context.scope temporaries
              ∧ (∀ m ∈ op.selfAndDescendants, ∀ v, Canonical.mentioned? m = some v →
                ∀ t ∈ temporaries, v.name ≠ t.name)
              ∧ (op.unwrapPaths = [] → n = ⟨.nullableWrap type, [op]⟩)
              ∧ (op.unwrapPaths ≠ [] → ∃ check checks, lifts.checks = check :: checks
                ∧ n = .comma (lifts.prelude ++ [.ternary
                  (checks.foldl (.binary .logicalOr · · env.core.boolean) check) (.nullOf type)
                  ⟨.nullableWrap type, [op.withFirsts op.unwrapPaths holders]⟩ type])) := by
  intro scope type
  let g : Lowerer := ⟨env, method, lowerUpTo env method levels⟩
  have hg : g.Reliable False := ⟨False.elim, ensures_lowerUpTo False.elim method levels⟩
  obtain ⟨-, hvalue⟩ := (hg.expression (e := a) (s := s) False.elim).done_of_run hop
  obtain ⟨table', operands, holders, hlift, hunwraps, hheld⟩ :=
    liftsIn_of_isExpression g hvalue.expression s₁ rfl
  have hfresh := hheld.fresh
  refine ⟨⟨pairwise_unwrapPaths op, fun path => mem_unwrapPaths_iff⟩,
    lifted env.core (op.withFirsts op.unwrapPaths holders)
      (.holding env.core scope.retyping operands holders) type,
    s₁.withTable table', operands, holders, ?_, hunwraps, hheld.forall₂, hfresh, ?_, ?_, ?_⟩
  · rw [hcode]
    show ((g.liftedOperation e).run s : Except Error Node × State) = _
    unfold Lowerer.liftedOperation
    rw [run_bind_of_run (run_argument_of_getElem? ha s), run_bind_of_run hop,
      run_bind_of_run (run_typeOf g op s₁), run_bind_of_run hlift]
    rfl
  · -- What the tree mentions is in the scope, and the temporaries are not.
    intro m hm v hv t ht
    have hmentions := HoldsIn.forall_descendants hvalue.expression.2
      (fun _ m hm => hm.mentions) m hm
    exact hfresh.free t ht v (hmentions v hv)
  · intro hnone
    rw [hnone] at hunwraps ⊢
    cases hunwraps
    cases hheld
    rfl
  · intro hsome
    have hoperands : operands ≠ [] := by
      rintro rfl
      exact hsome (List.forall₂_nil_right_iff.mp hunwraps)
    obtain ⟨check, checks, hchecks⟩ := hheld.exists_checks hoperands
    exact ⟨check, checks, hchecks, lifted_of_checks hchecks _ type⟩

/-! ### A sum of two nullable values -/

/-- The sum of what a call yields and a local. -/
def nullableSum : Cil.Expr :=
  let nullable := Core.standard.nullableOf Core.standard.int32
  .plain .add .none
    [.plain .valueOf .none [staticCall "Next" nullable],
      .plain .valueOf .none [loadOf "a" nullable]]

/-- The tree that the sum is lowered to, in a plain run. -/
def nullableSumRun : Except Error Node × State :=
  ((plainLowerer nullableSum).expression nullableSum).run ⟨.start true 512, .start⟩

/-- Both addends of the sum are tested, and the first one is held by a temporary. -/
theorem nullableSum_tested :
    let e : Cil.Expr := .plain .nullableOf .none [nullableSum]
    ∃ op s₁ n s' operands holders check checks,
      nullableSumRun = (.ok op, s₁) ∧ op.unwrapPaths = [[0], [1]] ∧ loweredTo e = (.ok n, s')
        ∧ List.Forall₂ op.Unwraps op.unwrapPaths operands
        ∧ (temporariesOf operands holders).length = 1
        ∧ let type := liftedType .standard none
            (op.computedType .standard s₁.context.scope.retyping)
          let lifts := Lifts.holding .standard s₁.context.scope.retyping operands holders
          lifts.checks = check :: checks ∧ n = .comma (lifts.prelude ++ [.ternary
            (checks.foldl (.binary .logicalOr · · Core.standard.boolean) check) (.nullOf type)
            ⟨.nullableWrap type, [op.withFirsts op.unwrapPaths holders]⟩ type]) := by
  intro e
  have hpaths : nullableSumRun.1.toOption.map unwrapPaths = some [[0], [1]] := by decide +kernel
  have hbefore : nullableSumRun.2.context.scope.temporaries = [] := by decide +kernel
  have hafter : (loweredTo e).2.context.scope.temporaries.length = 1 := by decide +kernel
  rcases hrun : nullableSumRun with ⟨_ | op, s₁⟩ <;> rw [hrun] at hpaths hbefore
  · cases hpaths
  · replace hpaths : op.unwrapPaths = [[0], [1]] := Option.some.inj hpaths
    obtain ⟨-, n, s', operands, holders, hlowered, hunwraps, -, hfresh, -, -, htested⟩ :=
      lifted_operands_tested plainEnv _ _ (e := e) rfl rfl hrun
    have hlowered : loweredTo e = (.ok n, s') := hlowered
    obtain ⟨check, checks, hchecks, hn⟩ := htested (by simp [hpaths])
    refine ⟨op, s₁, n, s', operands, holders, check, checks, rfl, hpaths, hlowered, hunwraps, ?_,
      hchecks, hn⟩
    have hgained := hfresh.gained
    rw [hlowered] at hafter
    rw [hbefore, List.nil_append] at hgained
    rw [← hgained]
    exact hafter

end Lowering

end ScriptLowering
