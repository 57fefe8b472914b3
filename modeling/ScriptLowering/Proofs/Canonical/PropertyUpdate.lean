import ScriptLowering.Canonical.PropertyUpdate
import ScriptLowering.Proofs.Canonical.Reduction

/-!
# Updates of properties, split

Only compound assignments of properties are split (`propertyUpdate_cases`), into a sequence that is
made of the operands of the access, the value and new temporaries. So what holds of these, and of the
nodes that are built from them, holds of the sequence (`Splitting.reduct`).
-/

namespace ScriptLowering.Canonical

open Script Lowering

/-! ### Which nodes are split -/

section

variable {c : Core} {n : Node} {scope : Scope}

theorem propertyUpdate_cases (c : Core) (n : Node) (scope : Scope) :
    (propertyUpdate c).reduct? n scope = (.ok none, scope)
      ∨ ∃ op type property operands value base,
        n = ⟨.binary op type, [⟨.propertyAccess property, operands⟩, value]⟩
          ∧ op.compoundBase? = some base
          ∧ (propertyUpdate c).reduct? n scope
            = ((updateSequence c property base operands value scope).1.map some,
              (updateSequence c property base operands value scope).2) := by
  simp only [propertyUpdate]
  split
  · next op type property operands value =>
    split
    · next base hbase =>
      refine .inr ⟨op, type, property, operands, value, base, rfl, hbase, ?_⟩
      rcases updateSequence c property base operands value scope with ⟨e | sequence, scope'⟩ <;> rfl
    · exact .inl rfl
  · exact .inl rfl

/-- What a node is that is split. -/
theorem exists_of_propertyUpdate {m : Node}
    (h : ((propertyUpdate c).reduct? n scope).1 = .ok (some m)) :
    ∃ op type property operands value base,
      n = ⟨.binary op type, [⟨.propertyAccess property, operands⟩, value]⟩
        ∧ op.compoundBase? = some base
        ∧ (updateSequence c property base operands value scope).1 = .ok m := by
  rcases propertyUpdate_cases c n scope with hnone
    | ⟨op, type, property, operands, value, base, hn, hbase, hstep⟩
  · rw [hnone] at h
    cases h
  · rw [hstep] at h
    refine ⟨op, type, property, operands, value, base, hn, hbase, ?_⟩
    rcases hanswer : (updateSequence c property base operands value scope).1 with e | sequence
      <;> rw [hanswer] at h <;> cases h
    rfl

theorem isAssignment_of_compoundBase? {op base : BinaryOp} (h : op.compoundBase? = some base) :
    base.isAssignment = false := by
  cases op <;> cases h <;> rfl

theorem comma_form {ns : List Node} (h : 2 ≤ ns.length) : (Node.comma ns).form = .comma := by
  unfold Node.comma
  split
  · cases h with | step h => cases h
  · rfl

end

/-! ### What sequences are made of -/

/-- Properties of variables, types, members and trees that hold of the sequence that an update is
split into, if they hold of the update. -/
structure Splitting (c : Core) (fits : Scope → Prop) (types : Ty → Prop) (members : Property → Prop)
    (p : Scope → Node → Prop) : Prop where
  type {property : Property} : members property → types property.type := by exact fun _ => trivial
  typeOf {s : Scope} {n : Node} : fits s → p s n → types (n.computedType c s.retyping) := by
    exact fun _ _ => trivial
  temporary {s : Scope} {t : Ty} : fits s → types t → fits (s.newTemporary t).2
    ∧ p (s.newTemporary t).2 (.ofVariable (s.newTemporary t).1)
  later {s : Scope} {n : Node} {t : Ty} : p s n → p (s.newTemporary t).2 n := by exact id
  empty {s : Scope} : p s .empty
  access {s : Scope} {property : Property} {target : Node} {indices : List Node} :
    members property → p s target → (∀ i ∈ indices, p s i) →
    p s (.propertyAccess property target indices)
  operation {s : Scope} {op : BinaryOp} {left right : Node} {t : Ty} : op.isAssignment = false →
    types t → p s left → p s right → p s (.binary op left right t)
  assign {s : Scope} {target value : Node} {t : Ty} : target.isLocation = true → types t →
    p s target → p s value → p s (.binary .assign target value t)
  comma {s : Scope} {ns : List Node} : (∀ n ∈ ns, p s n) → p s (.comma ns)

namespace Splitting

variable {c : Core} {fits : Scope → Prop} {types : Ty → Prop} {members : Property → Prop}
  {p : Scope → Node → Prop} (hp : Splitting c fits types members p)
include hp

theorem spilled : ∀ (operands : List Node) (isReceiver : Bool) {s : Scope}, fits s →
    (∀ o ∈ operands, p s o) → fits (spill c isReceiver operands s).2
      ∧ (∀ n, p s n → p (spill c isReceiver operands s).2 n)
      ∧ (∀ a ∈ (spill c isReceiver operands s).1.assignments, p (spill c isReceiver operands s).2 a)
      ∧ ∀ o ∈ (spill c isReceiver operands s).1.operands, p (spill c isReceiver operands s).2 o
  | [], _, _, hs, _ => ⟨hs, fun _ => id, nofun, nofun⟩
  | operand :: rest, isReceiver, s, hs, h => by
    obtain ⟨hoperand, hrest⟩ := List.forall_mem_cons.mp h
    simp only [spill]
    split
    · -- The operand stays in place.
      obtain ⟨hs', hlater, hassignments, hoperands⟩ := spilled rest false hs hrest
      exact ⟨hs', hlater, hassignments, List.forall_mem_cons.mpr ⟨hlater _ hoperand, hoperands⟩⟩
    · -- The operand is read from a new temporary, which the assignments before set.
      have htype := hp.typeOf hs hoperand
      obtain ⟨hnew, hv⟩ := hp.temporary hs htype
      obtain ⟨hs', hlater, hassignments, hoperands⟩ :=
        spilled rest false hnew fun o ho => hp.later (hrest o ho)
      refine ⟨hs', fun n hn => hlater n (hp.later hn), List.forall_mem_cons.mpr ⟨?_, hassignments⟩,
        List.forall_mem_cons.mpr ⟨hlater _ hv, hoperands⟩⟩
      exact hp.assign rfl htype (hlater _ hv) (hlater _ (hp.later hoperand))

theorem updated {property : Property} {op : BinaryOp} {operands : List Node} {value : Node}
    {s : Scope} (hproperty : members property) (hop : op.isAssignment = false) (hs : fits s)
    (hoperands : ∀ o ∈ operands, p s o) (hvalue : p s value) :
    fits (updateSequence c property op operands value s).2
      ∧ ∀ n, (updateSequence c property op operands value s).1 = .ok n →
        p (updateSequence c property op operands value s).2 n ∧ n.form = .comma := by
  have htype := hp.type hproperty
  obtain ⟨hspill, hlater, hassignments, hspilled⟩ := hp.spilled operands true hs hoperands
  obtain ⟨hnew, hv⟩ := hp.temporary hspill htype
  have haccess : p (spill c true operands s).2
      (accessOf property (spill c true operands s).1.operands) := by
    refine hp.access hproperty ?_ fun o ho => hspilled o (List.mem_of_mem_tail ho)
    cases hhead : (spill c true operands s).1.operands.head? with
    | none => exact hp.empty
    | some first => exact hspilled first (List.mem_of_head? hhead)
  simp only [updateSequence]
  split
  · next write hwrite =>
    refine ⟨hnew, fun n hn => ?_⟩
    cases hn
    obtain ⟨hlocation, rfl⟩ := Node.eq_of_compoundAssign hwrite
    refine ⟨hp.comma (List.forall_mem_append.mpr ⟨fun a ha => hp.later (hassignments a ha), ?_⟩),
      comma_form (by simp)⟩
    -- What is computed, the write, and the result.
    simp only [List.forall_mem_cons]
    refine ⟨?_, ?_, hv, nofun⟩
    · exact hp.assign rfl htype hv
        (hp.operation hop htype (hp.later haccess) (hp.later (hlater _ hvalue)))
    · exact hp.assign hlocation (hp.typeOf hnew (hp.later haccess)) (hp.later haccess) hv
  · exact ⟨hnew, nofun⟩

/-- What a node is split into. -/
theorem reduct (n : Node) {s : Scope} (hs : fits s)
    (hn : ∀ op type property operands value,
      n = ⟨.binary op type, [⟨.propertyAccess property, operands⟩, value]⟩ →
      members property ∧ (∀ o ∈ operands, p s o) ∧ p s value) :
    fits ((propertyUpdate c).reduct? n s).2
      ∧ ∀ m, ((propertyUpdate c).reduct? n s).1 = .ok (some m) →
        p ((propertyUpdate c).reduct? n s).2 m ∧ m.form = .comma := by
  rcases propertyUpdate_cases c n s with hnone
    | ⟨op, type, property, operands, value, base, heq, hbase, hstep⟩
  · rw [hnone]
    exact ⟨hs, nofun⟩
  · obtain ⟨hproperty, hoperands, hvalue⟩ := hn op type property operands value heq
    obtain ⟨hfits, hsequence⟩ :=
      hp.updated hproperty (isAssignment_of_compoundBase? hbase) hs hoperands hvalue
    rw [hstep]
    refine ⟨hfits, fun m hm => ?_⟩
    rcases hanswer : (updateSequence c property base operands value s).1 with e | sequence
      <;> rw [hanswer] at hm <;> cases hm
    exact hsequence m hanswer

end Splitting

/-! ### Expressions -/

variable {derived : Prop} {around : List Enclosure}

theorem splitting_isExpression (c : Core) (scope : Scope) :
    Splitting c scope.Grows (fun _ => True) (fun property => derived → property.IsOneSided)
      fun s n => n.IsExpression derived s.allVariables around where
  temporary {s t} hs _ := by
    obtain ⟨hv, hnew⟩ := s.newTemporary_spec t
    exact ⟨hs.trans hnew, Node.isExpression_ofVariable.mpr hv⟩
  later {s _ t} hn := hn.mono (s.newTemporary_spec t).2.subset
  empty := Node.isExpression_empty
  access hproperty htarget hindices :=
    Node.isExpression_propertyAccess.mpr ⟨hproperty, htarget, hindices⟩
  operation hop _ hleft hright := Node.isExpression_operation hop hleft hright
  assign hlocation _ htarget hvalue :=
    Node.isExpression_binary.mpr ⟨fun _ _ => hlocation, htarget, hvalue⟩
  comma := Node.isExpression_comma

theorem propertyUpdate_preserves (c : Core) : (propertyUpdate c).Preserves derived id := by
  intro n scope around hn
  have hsplitting := @splitting_isExpression derived around c scope
  obtain ⟨hgrows, hsplit⟩ := hsplitting.reduct n (.refl scope) fun op type property operands value h => by
    subst h
    have hupdate : Node.IsExpression derived scope.allVariables around
        ⟨.binary op type, [⟨.propertyAccess property, operands⟩, value]⟩ := ⟨rfl, hn⟩
    have haccess := hupdate.operand List.mem_cons_self
    exact ⟨fun hd => (haccess.sound hd).accessor property rfl, fun o ho => haccess.operand ho,
      hupdate.operand (List.mem_cons_of_mem _ List.mem_cons_self)⟩
  refine ⟨hgrows, fun m hm => ?_⟩
  obtain ⟨hexpression, hform⟩ := hsplit m hm
  obtain ⟨op, type, property, operands, value, base, rfl, -, -⟩ := exists_of_propertyUpdate hm
  have hordinary : m.IsOrdinary derived _ around :=
    ⟨hexpression, by rw [hform]; rfl, by rw [hform]; rfl⟩
  exact ⟨hexpression.2, hordinary.standsFor ⟨rfl, hn⟩ fun _ => rfl⟩

end ScriptLowering.Canonical
