import ScriptLowering.Canonical.Pass
import ScriptLowering.Proofs.Canonical.Expansion
import ScriptLowering.Proofs.Canonical.PropertyUpdate
import ScriptLowering.Proofs.Canonical.TidyIntrinsic

/-!
# Passes keep trees tidy

A replacement is tidy where the node that it replaces was, and only nodes are replaced that neither
are variables nor assign one (`Keeps`). So the nodes around a place may go on relying on what they
relied on, and a reduction keeps whole trees tidy, however it ends.
-/

namespace ScriptLowering.Canonical

open Script Lowering

/-! ### What replacements keep -/

/-- A node that is tidy wherever another one is, and that is the variable that the other one is, or
assigns the variable that the other one assigns. -/
structure Keeps (d : Discipline) (n m : Node) : Prop where
  tidy : ∀ {defined}, Tidy d false defined n → Tidy d false defined m
  var? : n.var?.toList ⊆ m.var?.toList
  assigned? : n.assigned?.toList ⊆ m.assigned?.toList

variable {d : Discipline} {defined : List Variable} {n m : Node}

namespace Keeps

theorem refl (n : Node) : Keeps d n n :=
  ⟨id, List.Subset.refl _, List.Subset.refl _⟩

theorem trans {k : Node} (h : Keeps d n m) (h' : Keeps d m k) : Keeps d n k where
  tidy hn := h'.tidy (h.tidy hn)
  var? := List.Subset.trans h.var? h'.var?
  assigned? := List.Subset.trans h.assigned? h'.assigned?

theorem of_expression (hvar : n.var? = none) (hassigned : n.assigned? = none)
    (htidy : ∀ {defined}, Tidy d false defined n → Tidy d false defined m) : Keeps d n m where
  tidy := htidy
  var? := by simp [hvar]
  assigned? := by simp [hassigned]

theorem grants (h : Keeps d n m) (form : Form) (slot : Nat) :
    form.grants slot n ⊆ form.grants slot m := by
  unfold Form.grants
  split
  · exact h.var?
  · exact List.Subset.refl _

theorem passesOn (h : Keeps d n m) (form : Form) : form.passesOn n ⊆ form.passesOn m := by
  unfold Form.passesOn
  split
  · exact h.assigned?
  · exact List.Subset.refl _

theorem tidyFrom {form : Form} {ns ms : List Node} (h : List.Forall₂ (Keeps d) ns ms) :
    ∀ {slot : Nat} {defined : List Variable}, TidyFrom d false form slot defined ns →
      TidyFrom d false form slot defined ms := by
  induction h with
  | nil => exact fun hns => hns
  | cons hfirst _ ih =>
    intro slot defined hns
    obtain ⟨hn, hrest⟩ := tidyFrom_cons.mp hns
    -- A replacement grants and passes on at least what the operand did.
    refine tidyFrom_cons.mpr ⟨(hfirst.tidy hn).weaken ?_ id, TidyFrom.weaken (ih hrest) ?_ id⟩
    · exact List.append_subset.mpr ⟨List.Subset.trans (hfirst.grants form slot)
        (List.subset_append_left _ _), List.subset_append_right _ _⟩
    · exact List.append_subset.mpr ⟨List.Subset.trans (hfirst.passesOn form)
        (List.subset_append_left _ _), List.subset_append_right _ _⟩

/-- Operands may be replaced. -/
theorem congr {form : Form} {ns ms : List Node} (h : List.Forall₂ (Keeps d) ns ms) :
    Keeps d ⟨form, ns⟩ ⟨form, ms⟩ where
  tidy hn := by
    obtain ⟨hform, hns⟩ := tidy_mk.mp hn
    rw [Form.staysOpen_false] at hns
    refine tidy_mk.mpr ⟨hform, ?_⟩
    rw [Form.staysOpen_false]
    exact tidyFrom h hns
  var? := List.Subset.refl _
  assigned? := by
    cases h with
    | nil => exact List.Subset.refl _
    | cons hfirst _ =>
      unfold Node.assigned?
      split
      · next heq =>
        cases heq
        exact hfirst.var?
      · exact List.nil_subset _

end Keeps

/-! ### Casts -/

theorem Constant.tidy {t : Ty} {l : Literal} (hl : Constant t l) :
    Tidy d false defined (.literal l) := by
  cases hl with
  | null | float => exact tidy_canonical rfl
  | retyped hretype => exact tidy_canonical (Literal.isCanonical_of_retype? hretype)

variable {h : Hierarchy} {r : Retyping}

theorem Expansion.tidy {value : Node} {target : Ty} {checked : Bool}
    (hm : Expansion h r value target checked m) (hvalue : Tidy d false defined value) :
    Tidy d false defined m := by
  have haround {form : Form} {o : Node} (hform : form.isOrdinary = true)
      (ho : Tidy d false defined o) : Tidy d false defined ⟨form, [o]⟩ :=
    (tidy_ordinary_singleton hform).mpr ho
  -- Transparent forms are ordinary, so what stands under them is tidy.
  have hinner (kind : Primitive) : Tidy d false defined (innermost h.core r kind value) := by
    refine innermost_of h.core r kind (fun {form _ _} htransparent hn => ?_) hvalue
    have hform : form.isOrdinary = true := by
      cases form <;> first | rfl | cases htransparent
    exact (tidy_ordinary hform).mp hn _ List.mem_cons_self
  have hinteger (kind : Primitive) : Tidy d false defined (enumInteger h r value kind) := by
    have hreading := reading_enumInteger h r value kind
    generalize enumInteger h r value kind = integer at hreading
    cases hreading with
    | same _ => exact hinner kind
    | ofEnum | changed _ => exact haround rfl (hinner kind)
  cases hm with
  | same _ => exact hvalue
  | constant hl => exact hl.tidy
  | upcast _ _ | changed _ _ _ _ _ | conversion | call => exact haround rfl hvalue
  | test _ hzero => exact hvalue.binary hzero.tidy
  | choice hone hzero =>
    refine tidy_ternary.mpr ?_
    simp only [List.forall_mem_cons]
    exact ⟨hvalue, hone.tidy, hzero.tidy, List.forall_mem_nil _⟩
  | integer _ _ => exact hinteger _
  | integerCast _ => exact haround rfl (hinteger _)
  | member _ _ => exact haround rfl (haround rfl hvalue)

/-- Expanding casts keeps trees tidy. -/
theorem castExpansion_follows {emulateInt64 : Bool} :
    (castExpansion h r emulateInt64).Follows (Keeps d) where
  refl := .refl
  trans := .trans
  congr := .congr
  step := by
    intro n m memo hm
    obtain ⟨target, checked, value, rest, rfl, hexpansion⟩ := expansion_of_reduct (Prod.ext hm rfl)
    refine .of_expression rfl rfl fun hn => ?_
    exact hexpansion.tidy (hn.forall_operands rfl value List.mem_cons_self)

/-! ### Calls -/

theorem intrinsicForms_follows : (Pass.intrinsicForms h r).Follows (Keeps d) where
  refl := .refl
  trans := .trans
  congr := .congr
  step := by
    intro n m s hm
    have hreplace : replaceCall? h r n = some m := Except.ok.inj hm
    have hforms : n.var? = none ∧ n.assigned? = none := by
      obtain ⟨form, operands⟩ := n
      cases form <;> first | exact ⟨rfl, rfl⟩ | cases hreplace
    exact .of_expression hforms.1 hforms.2 fun hn => tidy_replaceCall? nofun hn hreplace

/-! ### Updates of properties -/

variable {c : Core}

theorem tidy_spill : ∀ (operands : List Node) (isReceiver : Bool) (scope : Scope),
    (∀ o ∈ operands, Tidy d false defined o) →
      (∀ a ∈ (spill c isReceiver operands scope).1.assignments, Tidy d false defined a)
        ∧ ∀ o ∈ (spill c isReceiver operands scope).1.operands, Tidy d false
          (assignedVariables (spill c isReceiver operands scope).1.assignments ++ defined) o
  | [], _, _, _ => ⟨List.forall_mem_nil _, List.forall_mem_nil _⟩
  | operand :: rest, isReceiver, scope, h => by
    obtain ⟨hoperand, hrest⟩ := List.forall_mem_cons.mp h
    simp only [spill]
    split
    · obtain ⟨hassignments, hoperands⟩ := tidy_spill rest false _ hrest
      refine ⟨hassignments, List.forall_mem_cons.mpr ⟨?_, hoperands⟩⟩
      exact hoperand.weaken (List.subset_append_right _ _) id
    · obtain ⟨hassignments, hoperands⟩ := tidy_spill rest false _ hrest
      refine ⟨List.forall_mem_cons.mpr ⟨tidy_assign_ofVariable.mpr hoperand, hassignments⟩,
        List.forall_mem_cons.mpr ⟨tidy_ofVariable_self, ?_⟩⟩
      exact fun o ho => (hoperands o ho).weaken (List.subset_cons_self _ _) id

theorem tidy_updateSequence {property : Property} {op : BinaryOp} {operands : List Node}
    {value : Node} {scope : Scope} (hoperands : ∀ o ∈ operands, Tidy d false defined o)
    (hvalue : Tidy d false defined value)
    (h : (updateSequence c property op operands value scope).1 = .ok m) :
    Tidy d false defined m := by
  obtain ⟨hassignments, hspilled⟩ := tidy_spill (c := c) operands true scope hoperands
  unfold updateSequence at h
  simp only at h
  generalize (spill c true operands scope).1 = spilled at hassignments hspilled h
  have haccess : Tidy d false (assignedVariables spilled.assignments ++ defined)
      (accessOf property spilled.operands) := by
    refine (tidy_ordinary rfl).mpr (List.forall_mem_cons.mpr ⟨?_, fun o ho => ?_⟩)
    · exact tidy_getD hspilled fun _ ho => List.mem_of_head? ho
    · exact hspilled o (List.mem_of_mem_tail ho)
  split at h
  · next write hwrite =>
    cases h
    obtain ⟨-, rfl⟩ := Node.eq_of_compoundAssign hwrite
    refine tidy_comma ((tidyFrom_comma_of_forall hassignments).append ?_)
    refine tidyFrom_cons.mpr ⟨tidy_assign_ofVariable.mpr ?_, tidyFrom_cons.mpr ⟨?_, ?_⟩⟩
    · exact haccess.binary (hvalue.weaken (List.subset_append_right _ _) id)
    · -- The new value is assigned, so it can be written and yielded.
      exact (haccess.weaken (List.subset_cons_self _ _) id).assign tidy_ofVariable_self
    · refine tidyFrom_singleton.mpr (tidy_ofVariable.mpr fun _ => ?_)
      exact List.mem_append_right _ (List.mem_append_right _ List.mem_cons_self)
  · cases h

theorem propertyUpdate_follows : (propertyUpdate c).Follows (Keeps d) where
  refl := .refl
  trans := .trans
  congr := .congr
  step := by
    intro n m scope hm
    obtain ⟨op, result, property, operands, value, base, rfl, hbase, hsequence⟩ :=
      exists_of_propertyUpdate hm
    -- A compound operator is no plain assignment, so it assigns none of its variables.
    have hordinary : (Form.binary op result).isOrdinary = true := by
      cases op <;> first | rfl | cases hbase
    refine .of_expression rfl ?_ fun hn => ?_
    · cases op <;> rfl
    · have hoperands := (tidy_ordinary hordinary).mp hn
      simp only [List.forall_mem_cons] at hoperands
      exact tidy_updateSequence (hoperands.1.forall_operands rfl) hoperands.2.1 hsequence

/-! ### Passes -/

theorem Pass.tidy_step {env : Env} {p : Pass} (hp : p ≠ .declarations) {w : Work}
    (hw : Tidy d false [] w.method.body) : Tidy d false [] (p.step env w).2.method.body := by
  cases p with
  | intrinsics => exact (intrinsicForms_follows.run _ _ _).tidy hw
  | propertyUpdates => exact (propertyUpdate_follows.run _ _ _).tidy hw
  | castExpansion => exact (castExpansion_follows.run _ _ _).tidy hw
  | declarations => exact absurd rfl hp

end ScriptLowering.Canonical
