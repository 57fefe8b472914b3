import ScriptLowering.Proofs.Canonical.CastTyping
import ScriptLowering.Proofs.Canonical.Descent
import ScriptLowering.Proofs.Canonical.ReferenceWrapper
import ScriptLowering.Proofs.Canonical.Termination
import ScriptLowering.Proofs.Ty.InterfaceGrowth

/-!
# When the passes come back

The walk of each pass stops. But the expansion of a cast between references asks whether the target
is the more general type (`Asks`), and an answer that is not remembered may need a search for
interfaces that has no end. So the expansion comes back only if all questions that it asks on its
way are answered (`CastsReturn`).
-/

namespace ScriptLowering

/-! ### Questions and their answers -/

namespace Hierarchy

/-- The question whether a `source` can be stored as a `target` is answered: without interfaces, or
because the search for those of the source and its bases ends. -/
def Answers (h : Hierarchy) (target source : Ty) : Prop :=
  h.isDirectlyAssignable target source = true
    ∨ (h.reachableInterfaces? (source.strip :: h.baseChain source.strip)).isSome = true

/-- The interfaces of a type and its bases have names of bounded length. -/
def BoundsNames (h : Hierarchy) (t : Ty) : Prop :=
  ∃ bound, ∀ n, ∀ i ∈ (h.visits (t.strip :: h.baseChain t.strip) n).found,
    i.fullName.length ≤ bound

variable {h : Hierarchy}

theorem BoundsNames.answers {source : Ty} (hsource : h.BoundsNames source) (target : Ty) :
    h.Answers target source :=
  .inr (isSome_reachableInterfaces?_iff.mpr (visits_end_iff.mpr hsource))

theorem Leveled.boundsNames {level : String × Nat → Nat} (hlevel : h.Leveled level) (t : Ty) :
    h.BoundsNames t :=
  visits_end_iff.mp (hlevel.visits_end _)

end Hierarchy

/-- A question is remembered, or it is answered now. -/
def AssignableMemo.Answers (m : AssignableMemo) (h : Hierarchy) (target source : Ty) : Prop :=
  (m.answers.lookup (target.fullName, source.fullName)).isSome = true ∨ h.Answers target source

namespace Canonical

open Script Lowering

/-! ### Calls in a walk -/

namespace Reducer

variable {σ : Type} {w : Reducer σ} {limit : Nat} {inv : Node → Prop}

/-- The first place is replaced so many times, each time by a valid node, and is then the second. -/
inductive ReplacedBy (w : Reducer σ) : Nat → Site σ → Site σ → Prop where
  | refl (p : Site σ) : w.ReplacedBy 0 p p
  | step {k : Nat} {n m : Node} {s s' : σ} {q : Site σ} : w.reduct? n s = (.ok (some m), s') →
    m.validate = .ok () → w.ReplacedBy k ⟨m, s'⟩ q → w.ReplacedBy (k + 1) ⟨n, s⟩ q

/-- A walk from the first place calls the reducer at the second: it comes to a place that becomes
this one while it is replaced. -/
def CalledAt (w : Reducer σ) (limit : Nat) (p q : Site σ) : Prop :=
  ∃ entered, Relation.ReflTransGen (w.Enters limit) p entered
    ∧ ∃ k ≤ limit, w.ReplacedBy k entered q

/-- An invariant that replacements keep and that passes to operands. -/
structure Keeps (w : Reducer σ) (inv : Node → Prop) : Prop where
  reduct : ∀ {n m : Node} {s s' : σ}, inv n → w.reduct? n s = (.ok (some m), s') → inv m
  operand : ∀ {form : Form} {operands : List Node}, inv ⟨form, operands⟩ → ∀ o ∈ operands, inv o

namespace Keeps

variable (hw : w.Keeps inv)
include hw

theorem settle (left : Nat) (changed : Bool) {n : Node} (s : σ) (hn : inv n) :
    inv (w.settle left changed n s).result := by
  fun_induction Reducer.settle w left changed n s with
  | case1 | case2 | case3 | case4 => exact hn
  | case5 _ _ _ _ _ hstep _ _ _ ih => exact ih (hw.reduct hn hstep)

theorem entered {p q : Site σ} (h : Relation.ReflTransGen (w.Enters limit) p q)
    (hp : inv p.node) : inv q.node := by
  induction h with
  | refl => exact hp
  | @tail q q' _ henters ih =>
    obtain ⟨before, later, budget, c, c', -, hoperands, -, -⟩ := henters
    have hroot := hw.settle limit false q.state ih
    generalize (w.settle limit false q.node q.state).result = root at hroot hoperands
    obtain ⟨form, operands⟩ := root
    obtain rfl : operands = before ++ q'.node :: later := hoperands
    exact hw.operand hroot q'.node (List.mem_append_right _ List.mem_cons_self)

theorem calledAt {p q : Site σ} (h : w.CalledAt limit p q) (hp : inv p.node) : inv q.node := by
  obtain ⟨place, hentered, k, -, hreplaced⟩ := h
  have hplace := hw.entered hentered hp
  clear hentered
  induction hreplaced with
  | refl => exact hplace
  | step hstep _ _ ih => exact ih (hw.reduct hplace hstep)

end Keeps

end Reducer

/-! ### Questions of the expansion of casts -/

variable {h : Hierarchy} {r : Retyping} {emulateInt64 : Bool} {n : Node} {target source : Ty}

/-- Types between which a cast needs the question: they are not taken for equal, and neither is
numeric. -/
structure NeedsAnswer (h : Hierarchy) (target source : Ty) : Prop where
  unequal : h.equal target source true = false
  target : target.numericKind? = none
  source : source.numericKind? = none

/-- The expansion of a node asks whether a `source` can be stored as a `target`: the node is a cast
between such types, and not of a null that becomes a null of the target. -/
structure Asks (h : Hierarchy) (r : Retyping) (n : Node) (target source : Ty) : Prop where
  cast : ∃ checked value rest, n = ⟨.cast target checked, value :: rest⟩
    ∧ value.computedType h.core r = source
    ∧ (value.isNullLiteral && (!target.isValueType || target.isNullable)) = false
  types : NeedsAnswer h target source

theorem reduct_of_asks (hn : Asks h r n target source) (memo : AssignableMemo) :
    ∃ upcast, (castExpansion h r emulateInt64).reduct? n memo
      = (.ok (if (memo.ask h target source).1 then some upcast else none),
          (memo.ask h target source).2) := by
  obtain ⟨⟨checked, value, rest, rfl, rfl, hnull⟩, hequal, htarget, hsource⟩ := hn
  refine ⟨if h.same target (value.computedType h.core r) then value else .changeType value target, ?_⟩
  have hconstant : castConstant? value (value.computedType h.core r) target = none := by
    rw [castConstant?, hsource]
    rfl
  simp only [castExpansion, expandCast?, hnull, hequal, hconstant, hsource, htarget,
    expandReference?]
  cases (memo.ask h target (value.computedType h.core r)).1 <;>
    cases h.same target (value.computedType h.core r) <;> rfl

theorem reduct_of_not_asks (hn : ∀ target source, ¬Asks h r n target source) :
    ∃ answer, ∀ memo, (castExpansion h r emulateInt64).reduct? n memo = (answer, memo) := by
  simp only [castExpansion]
  split
  · next target checked value rest =>
    unfold expandCast?
    dsimp only
    split
    · exact ⟨.ok _, fun _ => rfl⟩
    · next hnull =>
      split
      · exact ⟨.ok _, fun _ => rfl⟩
      · next hequal =>
        split
        · exact ⟨.ok _, fun _ => rfl⟩
        · split
          · next hnone =>
            rw [Bool.and_eq_true, Option.isNone_iff_eq_none, Option.isNone_iff_eq_none] at hnone
            exact absurd ⟨⟨checked, value, rest, rfl, rfl, Bool.eq_false_iff.mpr hnull⟩,
              Bool.eq_false_iff.mpr hequal, hnone.2, hnone.1⟩ (hn target _)
          · exact ⟨.ok _, fun _ => rfl⟩
  · exact ⟨.ok _, fun _ => rfl⟩

/-- The expansion of casts comes back: its walk stops, and all its questions are answered. -/
structure CastsReturn (h : Hierarchy) (r : Retyping) (emulateInt64 : Bool) (limit : Nat) (n : Node)
    (memo : AssignableMemo) : Prop where
  terminates : (castExpansion h r emulateInt64).Terminates limit n memo
  answered : ∀ p, (castExpansion h r emulateInt64).CalledAt limit ⟨n, memo⟩ p →
    ∀ target source, Asks h r p.node target source → p.state.Answers h target source

/-! ### Trees whose questions are answered -/

/-- A type about which no question is asked, or every one is answered. -/
def Settled (h : Hierarchy) (t : Ty) : Prop :=
  t.numericKind?.isSome = true ∨ h.BoundsNames t

theorem keeps_settled (h : Hierarchy) (r : Retyping) (emulateInt64 : Bool) :
    (castExpansion h r emulateInt64).Keeps
      fun n => ∀ x ∈ n.selfAndDescendants, Settled h (x.computedType h.core r) where
  reduct := by
    intro n m memo memo' hn hstep x hx
    obtain ⟨target, checked, value, rest, rfl, hm⟩ := expansion_of_reduct hstep
    have hparts : ∀ x ∈ value.selfAndDescendants, Settled h (x.computedType h.core r) := fun x hx =>
      hn x (Node.mem_selfAndDescendants_of_operand hx List.mem_cons_self)
    rcases hm.part_or_added x hx with hpart | hadded
    · exact hparts x hpart
    · rcases hadded.computedType_cases with htype | htype | ⟨kind, htype⟩
      · rw [htype]
        exact hn _ (Node.self_mem_selfAndDescendants _)
      · rw [htype]
        exact hparts value value.self_mem_selfAndDescendants
      · rw [htype]
        exact .inl rfl
  operand hn o ho x hx := hn x (Node.mem_selfAndDescendants_of_operand hx ho)

theorem castsReturn_of_boundsNames (limit : Nat) (memo : AssignableMemo)
    (hn : ∀ m ∈ n.selfAndDescendants, h.BoundsNames (m.computedType h.core r)) :
    CastsReturn h r emulateInt64 limit n memo where
  terminates := (moderate_castExpansion h r emulateInt64).terminates (by omega) n memo
  answered := by
    intro p hcalled target source hasks
    have hp := (keeps_settled h r emulateInt64).calledAt hcalled fun m hm => .inr (hn m hm)
    obtain ⟨checked, value, rest, hnode, rfl, -⟩ := hasks.cast
    rw [hnode] at hp
    -- The value of the cast is a part of the tree, and not numeric.
    rcases hp value (Node.mem_selfAndDescendants_of_operand value.self_mem_selfAndDescendants
      List.mem_cons_self) with hnumeric | hbounds
    · rw [hasks.types.source] at hnumeric
      cases hnumeric
    · exact .inr (hbounds.answers target)

/-- The walks of all passes stop, whatever the tree, the limit and the state, and the runs are given
enough levels. The expansion of casts comes back from all valid trees just if every question that a
cast may need is answered. It comes back from each tree in which the interfaces of all types have
names of bounded length, and from all trees where the places of parameters have levels. -/
theorem passes_return_iff (h : Hierarchy) (r : Retyping) (emulateInt64 : Bool) :
    (∀ (limit : Nat) (n : Node), (Pass.intrinsicForms h r).Terminates limit n ()
      ∧ (∀ scope : Scope, (propertyUpdate h.core).Terminates limit n scope)
      ∧ ∀ memo : AssignableMemo, (castExpansion h r emulateInt64).Terminates limit n memo)
    ∧ ((∀ (limit : Nat) (n : Node) (memo : AssignableMemo), n.Validates →
          CastsReturn h r emulateInt64 limit n memo)
        ↔ ∀ target source, NeedsAnswer h target source → h.Answers target source)
    ∧ (∀ (limit : Nat) (n : Node) (memo : AssignableMemo),
        (∀ m ∈ n.selfAndDescendants, h.BoundsNames (m.computedType h.core r)) →
          CastsReturn h r emulateInt64 limit n memo)
    ∧ ((∃ level, h.Leveled level) → ∀ (limit : Nat) (n : Node) (memo : AssignableMemo),
        CastsReturn h r emulateInt64 limit n memo) := by
  have hstops : ∀ (limit : Nat) (n : Node) (memo : AssignableMemo),
      (castExpansion h r emulateInt64).Terminates limit n memo :=
    fun _ n memo => (moderate_castExpansion h r emulateInt64).terminates (by omega) n memo
  refine ⟨fun limit n => ⟨?_, fun scope => ?_, hstops limit n⟩, ⟨fun hreturn => ?_, fun hanswers => ?_⟩,
    fun limit n memo hn => castsReturn_of_boundsNames limit memo hn,
    fun ⟨level, hlevel⟩ limit n memo =>
      castsReturn_of_boundsNames limit memo fun m _ => hlevel.boundsNames _⟩
  · exact (moderate_intrinsicForms h r).terminates (by omega) n ()
  · exact (moderate_propertyUpdate h.core).terminates (by omega) n scope
  · -- A cast of a call that yields a source is asked about at once.
    intro target source htypes
    let value : Node := .intrinsic "value" source []
    have hvalid : (value.cast target false).Validates := by
      have hnodes : (value.cast target false).selfAndDescendants
          = [value.cast target false, value] := by rfl
      unfold Node.Validates
      rw [hnodes]
      simp only [List.forall_mem_cons]
      exact ⟨rfl, rfl, fun _ hm => absurd hm List.not_mem_nil⟩
    have hasks : Asks h r (value.cast target false) target source :=
      ⟨⟨false, value, [], rfl, rfl, rfl⟩, htypes⟩
    have hcalled : (castExpansion h r emulateInt64).CalledAt 0 ⟨value.cast target false, .empty⟩
        ⟨value.cast target false, .empty⟩ :=
      ⟨_, .refl, 0, Nat.le_refl _, .refl _⟩
    rcases (hreturn 0 _ .empty hvalid).answered _ hcalled target source hasks with hheld | hnow
    · cases hheld
    · exact hnow
  · intro limit n memo _
    exact ⟨hstops limit n memo, fun p _ target source hasks => .inr (hanswers _ _ hasks.types)⟩

/-! ### A cast that is never expanded -/

/-- A widget as a string. -/
def widgetCast : Node :=
  (held Hierarchy.widgetClass).cast Core.standard.string false

/-- Where widgets implement larger and larger interfaces, the expansion of a single cast does not
come back, whatever the limit. -/
theorem widget_cast_never_returns :
    widgetCast.Validates
      ∧ ∀ limit, ¬CastsReturn Hierarchy.growing .empty false limit widgetCast .empty := by
  have hnodes : widgetCast.selfAndDescendants = [widgetCast, held Hierarchy.widgetClass] := by rfl
  refine ⟨?_, fun limit hreturn => ?_⟩
  · unfold Node.Validates
    rw [hnodes]
    simp only [List.forall_mem_cons]
    exact ⟨rfl, rfl, fun _ hm => absurd hm List.not_mem_nil⟩
  · have hasks : Asks Hierarchy.growing .empty widgetCast Core.standard.string
        Hierarchy.widgetClass :=
      ⟨⟨false, _, [], rfl, rfl, rfl⟩, by decide +kernel, rfl, rfl⟩
    have hcalled : (castExpansion Hierarchy.growing .empty false).CalledAt limit
        ⟨widgetCast, .empty⟩ ⟨widgetCast, .empty⟩ :=
      ⟨_, .refl, 0, Nat.zero_le _, .refl _⟩
    rcases hreturn.answered _ hcalled _ _ hasks with hheld | hdirectly | hends
    · cases hheld
    · have hno : Hierarchy.growing.isDirectlyAssignable Core.standard.string Hierarchy.widgetClass
          = false := by
        decide +kernel
      rw [hno] at hdirectly
      cases hdirectly
    · obtain ⟨n, hn⟩ := Hierarchy.isSome_reachableInterfaces?_iff.mp hends
      obtain ⟨k, hpending, -⟩ := Hierarchy.visits_growing n
      have hlineage : Hierarchy.widgetClass.strip
          :: Hierarchy.growing.baseChain Hierarchy.widgetClass.strip = [Hierarchy.widgetClass] := rfl
      rw [hlineage, hpending] at hn
      cases hn

end Canonical

end ScriptLowering
