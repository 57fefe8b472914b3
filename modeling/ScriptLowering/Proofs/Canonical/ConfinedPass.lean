import ScriptLowering.Batch
import ScriptLowering.Proofs.Canonical.Expansion
import ScriptLowering.Proofs.Canonical.Pass
import ScriptLowering.Proofs.Lowering.Confined

/-!
# Passes stay in a vocabulary

A reducer that stays in a set of types and keeps an invariant of its states does so over a whole tree
(`Reducer.Stays.run`). Each pass stays in the vocabulary of a method (`stays_step`): what it asks is
about types of the vocabulary, so that faithful sessions stay faithful. A method of a vocabulary is
thus lowered and brought to canonical form in faithful sessions throughout (`faithful_lowerMethod`).
-/

namespace ScriptLowering.Canonical

open Script Lowering

/-! ### Reducers -/

namespace Reducer

variable {σ : Type} {types : Ty → Prop} {I : σ → Prop}

/-- A reducer that stays in a set of types and keeps an invariant of its states. -/
def Stays (w : Reducer σ) (types : Ty → Prop) (I : σ → Prop) : Prop :=
  ∀ (n : Node) (s : σ), n.TypesIn types → I s → I (w.reduct? n s).2
    ∧ ∀ r, (w.reduct? n s).1 = .ok (some r) → r.TypesIn types

variable {w : Reducer σ}

theorem Stays.run (hw : w.Stays types I) (limit : Nat) {n : Node} {s : σ} (hn : n.TypesIn types)
    (hs : I s) : (w.run limit n s).2.1.TypesIn types ∧ I (w.run limit n s).2.2 := by
  -- The reducer goes with itself from states that have the invariant.
  have hgoes : w.GoesWith w (fun s s' => s = s' ∧ I s) (·.TypesIn types) := by
    refine ⟨rfl, ?_, fun hn _ ho => hn.operand ho,
      fun hn hoperands => Node.typesIn_mk.mpr ⟨hn.form, hoperands⟩⟩
    rintro n s _ hn ⟨rfl, hs⟩
    exact ⟨rfl, ⟨rfl, (hw n s hn hs).1⟩, (hw n s hn hs).2⟩
  have htree := reduceTree_alike hgoes limit (levels n) hn ⟨rfl, hs⟩
  simp only [Reducer.run]
  split <;> exact ⟨htree.kept, htree.state.2⟩

end Reducer

variable {env : Env} {V : Vocabulary env}

theorem intrinsicForms_stays {r : Retyping} (hr : V.Retypes r) :
    (Pass.intrinsicForms env.types r).Stays V.types fun _ => True :=
  fun _ _ hn _ => ⟨trivial, fun _ hm => typesIn_replaceCall? hr hn (Except.ok.inj hm)⟩

/-! ### Updates of properties -/

theorem splitting_typesIn : Splitting env.core (Scope.TypesIn V) V.types
    (fun property => ∀ t ∈ property.types, V.types t) fun _ n => n.TypesIn V.types where
  type hproperty := hproperty _ (by simp [Property.types])
  typeOf hs hn := V.computedType hs.retyping hn
  temporary hs ht := by
    obtain ⟨hv, hnew⟩ := hs.addTemporary _ ht
    exact ⟨hnew, Node.typesIn_ofVariable.mpr hv⟩
  empty := Node.typesIn_empty
  access hproperty htarget hindices :=
    Node.typesIn_propertyAccess.mpr ⟨hproperty, htarget, hindices⟩
  operation _ ht hleft hright := Node.typesIn_binary.mpr ⟨ht, hleft, hright⟩
  assign _ ht htarget hvalue := Node.typesIn_binary.mpr ⟨ht, htarget, hvalue⟩
  comma := Node.TypesIn.comma

theorem propertyUpdate_stays : (propertyUpdate env.core).Stays V.types (Scope.TypesIn V) := by
  intro n s hn hs
  obtain ⟨hscope, hsplit⟩ := splitting_typesIn.reduct n hs fun op type property operands value h => by
    subst h
    obtain ⟨-, hoperands⟩ := Node.typesIn_mk.mp hn
    simp only [List.forall_mem_cons] at hoperands
    obtain ⟨haccess, hvalue, -⟩ := hoperands
    obtain ⟨hproperty, htargets⟩ := Node.typesIn_mk.mp haccess
    exact ⟨hproperty, htargets, hvalue⟩
  exact ⟨hscope, fun m hm => (hsplit m hm).1⟩

/-! ### Casts -/

section

variable {r : Retyping} {value : Node} {target : Ty}

theorem Constant.typesIn {t : Ty} {l : Literal} (hl : Constant t l) (ht : V.types t) :
    (Node.literal l).TypesIn V.types := by
  cases hl with
  | null | float => exact Node.typesIn_literal.mpr (by simpa using ht)
  | retyped hretype =>
    refine Node.typesIn_literal.mpr fun u hu => ?_
    rw [Literal.types_of_retype? hretype u hu]
    exact ht

theorem Expansion.typesIn {checked : Bool} {m : Node}
    (hm : Expansion env.types r value target checked m) (hr : V.Retypes r)
    (hvalue : value.TypesIn V.types) (htarget : V.types target) : m.TypesIn V.types := by
  have hinner (kind : Primitive) : (innermost env.types.core r kind value).TypesIn V.types :=
    innermost_of _ r kind (fun _ hn => hn.operand List.mem_cons_self) hvalue
  have hinteger (kind : Primitive) : (enumInteger env.types r value kind).TypesIn V.types := by
    have hreading := reading_enumInteger env.types r value kind
    generalize enumInteger env.types r value kind = integer at hreading
    cases hreading with
    | same _ => exact hinner kind
    | ofEnum => exact Node.typesIn_conversion.mpr ⟨V.primitive kind, hinner kind⟩
    | changed _ => exact Node.typesIn_changeType.mpr ⟨V.primitive kind, hinner kind⟩
  cases hm with
  | same _ => exact hvalue
  | constant hl => exact hl.typesIn htarget
  | upcast _ _ | changed _ _ _ _ _ => exact Node.typesIn_changeType.mpr ⟨htarget, hvalue⟩
  | test _ hzero =>
    exact Node.typesIn_binary.mpr ⟨V.boolean, hvalue, hzero.typesIn (V.computedType hr hvalue)⟩
  | choice hone hzero =>
    exact Node.typesIn_ternary.mpr ⟨htarget, hvalue, hone.typesIn htarget, hzero.typesIn htarget⟩
  | integer _ _ => exact hinteger _
  | integerCast _ => exact Node.typesIn_cast.mpr ⟨htarget, hinteger _⟩
  | @member kind _ _ =>
    exact Node.typesIn_conversion.mpr ⟨htarget, Node.typesIn_cast.mpr ⟨V.primitive kind, hvalue⟩⟩
  | conversion => exact Node.typesIn_conversion.mpr ⟨htarget, hvalue⟩
  | call => exact Node.typesIn_intrinsic.mpr ⟨htarget, by simpa using hvalue⟩

theorem trusts_expandCast? {memo : AssignableMemo} (hr : V.Retypes r) (emulateInt64 checked : Bool)
    (hvalue : value.TypesIn V.types) (htarget : V.types target) (hmemo : V.Trusts memo) :
    V.Trusts (expandCast? env.types r emulateInt64 value target checked memo).2 := by
  have htrusts := V.trusts_ask hmemo htarget (V.computedType hr hvalue)
  simp only [expandCast?, expandReference?]
  split
  · exact hmemo
  · split
    · exact hmemo
    · split
      · exact hmemo
      · split
        · split
          · exact htrusts
          · split <;> exact htrusts
        · exact hmemo

theorem castExpansion_stays (hr : V.Retypes r) (emulateInt64 : Bool) :
    (castExpansion env.types r emulateInt64).Stays V.types V.Trusts := by
  intro n memo hn hmemo
  simp only [castExpansion]
  split
  · next target checked value rest =>
    obtain ⟨hform, hoperands⟩ := Node.typesIn_mk.mp hn
    have hvalue := hoperands value List.mem_cons_self
    have htarget : V.types target := hform target (by simp)
    refine ⟨trusts_expandCast? hr emulateInt64 checked hvalue htarget hmemo, fun m hm => ?_⟩
    exact (expansion_expandCast? (Except.ok.inj hm)).typesIn hr hvalue htarget
  · exact ⟨hmemo, fun m hm => by cases hm⟩

end

/-! ### Declarations -/

variable {m : Lowered}

theorem typesIn_declareVariables (hm : m.TypesIn V) : (declareVariables m).2.TypesIn V := by
  have hdeclared : ∀ v ∈ declaredIn m, V.types v.declaredType := by
    intro v hv
    have hmem : v ∈ m.scope.locals ++ m.scope.temporaries := (List.mem_filter.mp hv).1
    refine hm.scope.declared v ?_
    unfold Scope.allVariables
    rcases List.mem_append.mp hmem with h | h
    · exact List.mem_append_left _ (List.mem_append_right _ h)
    · exact List.mem_append_right _ h
  unfold declareVariables
  split
  · exact ⟨hm.body, hm.scope⟩
  · refine ⟨?_, hm.scope⟩
    -- The declaration stands before the statements, or before the whole body.
    have hstatement : Node.TypesIn V.types
        ⟨.variableDeclaration, (declaredIn m).map .ofVariable⟩ := by
      refine Node.typesIn_mk.mpr ⟨by simp, fun n hn => ?_⟩
      obtain ⟨v, hv, rfl⟩ := List.mem_map.mp hn
      exact Node.typesIn_ofVariable.mpr (hdeclared v hv)
    have hbody := hm.body
    show (prepend _ m.body).TypesIn V.types
    unfold prepend
    split
    · next statements hblock =>
      rw [hblock] at hbody
      exact Node.typesIn_block.mpr
        (List.forall_mem_cons.mpr ⟨hstatement, (Node.typesIn_mk.mp hbody).2⟩)
    · exact Node.typesIn_block.mpr (by simp [hstatement, hbody])

/-! ### Passes -/

/-- Work on a method of a vocabulary in a faithful session. -/
def Work.StaysIn (V : Vocabulary env) (w : Work) : Prop :=
  w.method.TypesIn V ∧ w.session.Faithful V

/-- A pass stays in the vocabulary. -/
theorem stays_step (p : Pass) (w : Work) (hw : w.StaysIn V) : (p.step env w).2.StaysIn V := by
  obtain ⟨hm, hs⟩ := hw
  cases p with
  | intrinsics =>
    have hrun := (intrinsicForms_stays hm.scope.retyping).run env.settings.maxReductionsPerNode
      (s := ()) hm.body trivial
    exact ⟨⟨hrun.1, hm.scope⟩, hs⟩
  | propertyUpdates =>
    have hrun := propertyUpdate_stays.run env.settings.maxReductionsPerNode hm.body hm.scope
    exact ⟨⟨hrun.1, hrun.2⟩, hs⟩
  | castExpansion =>
    have hrun := (castExpansion_stays hm.scope.retyping env.settings.emulateInt64).run
      env.settings.maxReductionsPerNode hm.body hs.assignable
    exact ⟨⟨hrun.1, hm.scope⟩, hs.directives, hs.properties, hrun.2⟩
  | declarations => exact ⟨typesIn_declareVariables hm, hs⟩

theorem faithful_lowerMethod (pipeline : Pipeline) {body : Cil.MethodBody} {s : Session}
    (h : V.Covers body.mentions) (hs : s.Faithful V) :
    (lowerMethod env pipeline body s).2.Faithful V := by
  obtain ⟨hs₁, hmethod⟩ := faithful_lowerOrStub h hs
  rw [lowerMethod]
  rcases hlower : lowerOrStub env body s with ⟨outcome, s₁⟩
  rw [hlower] at hs₁ hmethod
  cases outcome with
  | stubbed => exact hs₁
  | lowered m =>
    have hpipeline : Leads (pipeline.run env) ⟨m, s₁⟩ _ _ :=
      pipeline_keeps (I := Work.StaysIn V) (fun _ _ h => h) stays_step ⟨hmethod m rfl, hs₁⟩
    rcases hrun : (pipeline.run env).run ⟨m, s₁⟩ with ⟨answer, w⟩
    have hw : w.StaysIn V := by
      rcases hpipeline.of_run hrun with ⟨_, _, hw⟩ | ⟨_, hw⟩ <;> exact hw
    simp only [canonicalOrStub]
    rw [hrun]
    cases answer <;> exact hw.2

end ScriptLowering.Canonical
