import ScriptLowering.Proofs.Lowering.Criterion

/-!
# Lifting under a criterion

Lifting an operation puts variables in the place of the operands that are unwrapped in it, after
assignments of these variables and tests for absence. `Criterion.Lifting` lists what this relies on
beyond the making of values, where values do not rely on temporaries that were assigned before them:
a relation between a tree and the tree with prepared operands. An operation is then lifted to a value
(`Criterion.Lifting.gives`).
-/

namespace ScriptLowering.Lowering

open Script

/-- Assignments and tests with a property. -/
structure Lifts.All (p : Node → Prop) (lifts : Lifts) : Prop where
  prelude : ∀ n ∈ lifts.prelude, p n
  checks : ∀ n ∈ lifts.checks, p n

namespace Lifts.All

variable {p q : Node → Prop} {a b : Lifts}

theorem empty : Lifts.empty.All p :=
  ⟨List.forall_mem_nil _, List.forall_mem_nil _⟩

theorem mono (ha : a.All p) (h : ∀ n, p n → q n) : a.All q :=
  ⟨fun n hn => h n (ha.prelude n hn), fun n hn => h n (ha.checks n hn)⟩

theorem append (ha : a.All p) (hb : b.All p) : (a.append b).All p :=
  ⟨List.forall_mem_append.mpr ⟨ha.prelude, hb.prelude⟩,
    List.forall_mem_append.mpr ⟨ha.checks, hb.checks⟩⟩

end Lifts.All

namespace Criterion

variable {g : Lowerer}

/-- What lifting relies on. In a state, a tree with prepared operands is like the tree; a tree that
is like itself may be prepared. -/
structure Lifting (C : Criterion g) (Like : State → Node → Node → Prop) : Prop
    extends Composes C, Lasts C, Makes C where
  newTemporary {t : Ty} {s : State} :
    C.types t → C.Meets (Lower.newTemporary t) s fun s' n =>
      ∃ v, C.Temporary s' v ∧ n = .ofVariable v
  computedType {s : State} {n : Node} :
    C.Fits s → C.Part s [] n → C.types (n.computedType g.core s.context.scope.retyping)
  flat {s : State} {vs : List Variable} {n : Node} : C.Value s vs n → C.Value s [] n
  like_later {s s' : State} {m n : Node} : C.Later s s' → Like s m n → Like s' m n
  operand {s : State} {form : Form} {ns : List Node} :
    Like s ⟨form, ns⟩ ⟨form, ns⟩ → ∀ n ∈ ns, Like s n n
  congr {s : State} {form : Form} {ms ns : List Node} :
    Like s ⟨form, ns⟩ ⟨form, ns⟩ → List.Forall₂ (Like s) ms ns → Like s ⟨form, ms⟩ ⟨form, ns⟩
  unwrapped {s : State} {t : Ty} {n : Node} {rest : List Node} :
    Like s ⟨.nullableUnwrap t, n :: rest⟩ ⟨.nullableUnwrap t, n :: rest⟩ → C.Part s [] n
  /-- Any operand may be unwrapped in the place of another one. -/
  unwrap {s : State} {t : Ty} {m n : Node} {rest : List Node} :
    Like s ⟨.nullableUnwrap t, n :: rest⟩ ⟨.nullableUnwrap t, n :: rest⟩ → C.Part s [] m →
      Like s ⟨.nullableUnwrap t, m :: rest⟩ ⟨.nullableUnwrap t, n :: rest⟩
  ofValue {s : State} {n : Node} : C.Value s [] n → Like s n n
  toValue {s : State} {m n : Node} : C.Value s [] n → Like s m n → C.Value s [] m

namespace Lifting

variable {C : Criterion g} {Like : State → Node → Node → Prop} (hC : C.Lifting Like) {s : State}
include hC

/-- The disjunction of values is a value. -/
theorem disjunction {checks : List Node} {absent : Node}
    (hchecks : ∀ n ∈ checks, C.Value s [] n) (h : anyOf? g.core checks = some absent) :
    C.Value s [] absent := by
  cases checks with
  | nil => cases h
  | cons first rest =>
    cases h
    obtain ⟨hfirst, hrest⟩ := List.forall_mem_cons.mp hchecks
    clear hchecks
    induction rest generalizing first with
    | nil => exact hfirst
    | cons next rest ih =>
      obtain ⟨hnext, hrest⟩ := List.forall_mem_cons.mp hrest
      refine ih _ (hC.general rfl rfl (List.forall_mem_singleton.mpr C.lexicon.boolean) ?_) hrest
      exact List.forall_mem_cons.mpr ⟨hfirst, List.forall_mem_singleton.mpr hnext⟩

/-- A lifted operation is a value. -/
theorem lifted {operation : Node} {lifts : Lifts} {result : Ty} (hresult : C.types result)
    (hoperation : C.Value s [] operation) (hlifts : lifts.All (C.Value s [])) :
    C.Value s [] (lifted g.core operation lifts result) := by
  have htypes : ∀ t ∈ [result], C.types t := List.forall_mem_singleton.mpr hresult
  have hwrapped : C.Value s [] ⟨.nullableWrap result, [operation]⟩ :=
    hC.general rfl rfl htypes (List.forall_mem_singleton.mpr hoperation)
  unfold Lowering.lifted
  simp only
  split
  · exact hwrapped
  · next absent habsent =>
    have htest := hC.disjunction hlifts.checks habsent
    have hnull : C.Value s [] (.nullOf result) := hC.literal rfl htypes
    refine hC.afterPrelude hlifts.prelude (hC.weaken (hC.general rfl rfl htypes ?_))
    simp only [List.forall_mem_cons]
    exact ⟨htest, hnull, hwrapped, List.forall_mem_nil _⟩

/-- An operand is prepared by values. -/
theorem liftOperand {operand : Node} (h : C.Part s [] operand) :
    C.Meets (g.liftOperand operand) s fun s' r =>
      C.Part s' [] r.1 ∧ r.2.All (C.Value s' []) := by
  refine hC.fitting fun hs => ?_
  have htype := hC.computedType hs h
  refine hC.reading (operand.computedType g.core s.context.scope.retyping) (fun _ => rfl) ?_
  generalize operand.computedType g.core s.context.scope.retyping = type at htype ⊢
  have habsent {s : State} {n : Node} (hn : C.Part s [] n) :
      C.Value s [] (.binary .equal n (.nullOf type) g.core.boolean) := by
    refine hC.loose rfl rfl (List.forall_mem_singleton.mpr C.lexicon.boolean) ?_
    have hnull : C.Value s [] (.nullOf type) :=
      hC.literal rfl (List.forall_mem_singleton.mpr htype)
    exact List.forall_mem_cons.mpr ⟨hn, List.forall_mem_singleton.mpr (hC.part hnull)⟩
  refine Meets.ite (fun _ => ?_) fun _ => ?_
  · exact hC.pure ⟨h, List.forall_mem_nil _, List.forall_mem_singleton.mpr (habsent h)⟩
  · refine hC.bind (hC.newTemporary htype) ?_
    rintro s' _ h' ⟨v, hv, rfl⟩
    have hread : C.Part s' [] (.ofVariable v) :=
      hC.part (hC.flat (hC.temporary hv (List.mem_singleton_self v)))
    have hassigned := hC.assignTemporary hv (hC.part_later h' h) htype
    exact hC.pure ⟨hread, List.forall_mem_singleton.mpr hassigned,
      List.forall_mem_singleton.mpr (habsent hread)⟩

mutual

theorem liftIn : ∀ (n : Node) {s : State}, Like s n n →
    C.Meets (g.liftIn n) s fun s' r => Like s' r.1 n ∧ r.2.All (C.Value s' [])
  | ⟨form, operands⟩, s, h => by
    unfold Lowerer.liftIn
    split
    · exact hC.pure ⟨h, .empty⟩
    · exact hC.pure ⟨h, .empty⟩
    · split
      · exact hC.pure ⟨h, .empty⟩
      · refine hC.bind (hC.liftOperand (hC.unwrapped h)) fun s' r h' hr => ?_
        exact hC.pure ⟨hC.unwrap (hC.like_later h' h) hr.1, hr.2⟩
    · refine hC.bind (liftInAll operands (hC.operand h)) fun s' r h' hr => ?_
      exact hC.pure ⟨hC.congr (hC.like_later h' h) hr.1, hr.2⟩

theorem liftInAll : ∀ (ns : List Node) {s : State}, (∀ n ∈ ns, Like s n n) →
    C.Meets (g.liftInAll ns) s fun s' r =>
      List.Forall₂ (Like s') r.1 ns ∧ r.2.All (C.Value s' [])
  | [], s, _ => by
    unfold Lowerer.liftInAll
    exact hC.pure ⟨.nil, .empty⟩
  | n :: rest, s, h => by
    obtain ⟨hn, hrest⟩ := List.forall_mem_cons.mp h
    unfold Lowerer.liftInAll
    refine hC.bind (liftIn n hn) fun s₁ first h₁ hfirst => ?_
    refine hC.bind (liftInAll rest fun o ho => hC.like_later h₁ (hrest o ho))
      fun s₂ others h₂ hothers => ?_
    have hlifts := hfirst.2.mono fun _ hvalue => hC.value_later h₂ hvalue
    exact hC.pure ⟨.cons (hC.like_later h₂ hfirst.1) hothers.1, hlifts.append hothers.2⟩

end

/-- An operation is lifted to a value. -/
theorem gives {n : Node} {t : Ty} (hn : C.Value s [] n) (ht : C.types t) :
    C.Gives (g.liftIn n >>= fun r => Pure.pure (Lowering.lifted g.core r.1 r.2 t)) s := by
  refine hC.bind (hC.liftIn n (hC.ofValue hn)) fun s' r h' hr => ?_
  exact hC.pure (hC.lifted ht (hC.toValue (hC.value_later h' hn) hr.1) hr.2)

end Lifting

end Criterion

end ScriptLowering.Lowering
