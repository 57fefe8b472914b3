import ScriptLowering.Proofs.Canonical.CallForm
import ScriptLowering.Proofs.Script.Tidy

/-!
# Forms of library calls are tidy

The form that a library call has instead is tidy where the call is (`tidy_replaceCall?`). Where the
tree may still be lifted it has to rely on nothing, since a nullable value that is read by a call
becomes an unwrapped one.
-/

namespace ScriptLowering.Canonical

open Script

variable {d : Discipline} {lifting : Bool} {defined : List Variable} {c : Core} {n : Node}

/-- The constant of an element is allowed. -/
theorem allows_blobElement {element : Ty} {kind : Primitive}
    (hkind : element.numericKind? = some kind) (bytes : List UInt8) :
    d.allows (blobElement c element kind bytes) := by
  unfold blobElement
  simp only
  split
  case h_5 =>
    split
    · next henum =>
      obtain ⟨underlying, hunderlying⟩ := Option.isSome_iff_exists.mp henum
      by_cases hsame : underlying = kind
      · rw [hsame] at hunderlying
        exact d.canonical (Literal.isCanonical_ofEnum hunderlying _)
      · -- The kind is not that of the enumeration, so it is that of the definition.
        refine d.decoded ⟨?_, underlying, hunderlying, hsame⟩
        unfold Ty.numericKind? at hkind
        cases hprimitive : element.primitive? with
        | none =>
          rw [hprimitive, hunderlying] at hkind
          exact absurd (Option.some.inj hkind) hsame
        | some k =>
          rw [hprimitive] at hkind
          exact hkind
    · exact d.canonical (Literal.isCanonical_ofKind_wrap c kind _)
  all_goals exact d.canonical rfl

theorem forming_tidy (h : Hierarchy) (r : Retyping) (hopen : lifting = true → defined = []) :
    Forming h r (fun _ => True) (Tidy d lifting defined) where
  empty := tidy_empty
  nullOf _ := tidy_canonical rfl
  defaultOf _ := tidy_canonical rfl
  wrapped _ hn := tidy_nullableWrap.mpr (hn.weaken (List.Subset.refl _) nofun)
  unwrapped _ hn := by
    refine tidy_nullableUnwrap.mpr ?_
    cases lifting with
    | false => exact hn
    | true => exact hopen rfl ▸ hn
  operation _ _ hleft hright := hleft.binary hright
  ternary _ hcondition hfirst hsecond := by
    have hclosed : ∀ {n : Node}, Tidy d lifting defined n → Tidy d false defined n :=
      fun hn => hn.weaken (List.Subset.refl _) nofun
    refine tidy_ternary.mpr ?_
    simp [hclosed hcondition, hclosed hfirst, hclosed hsecond]
  intrinsic _ hns := (tidy_ordinary rfl).mpr hns
  invocation _ htarget harguments :=
    (tidy_ordinary rfl).mpr (List.forall_mem_cons.mpr ⟨htarget, harguments⟩)
  created hn := ⟨hn.forall_operands rfl _ List.mem_cons_self, fun _ _ => trivial⟩
  filled _ hfilled := by
    obtain ⟨kind, hkind, hconstants⟩ := hfilled.constants
    refine (tidy_ordinary rfl).mpr fun o ho => ?_
    obtain ⟨bytes, rfl⟩ := hconstants o ho
    exact tidy_literal.mpr (allows_blobElement hkind bytes)
  assign _ harray hvalue := harray.assign hvalue

theorem tidy_replaceCall? {h : Hierarchy} {r : Retyping} {node : Node}
    (hopen : lifting = true → defined = []) (hnode : Tidy d lifting defined node)
    (hreplace : replaceCall? h r node = some n) : Tidy d lifting defined n := by
  have hreplaced := replaced_of_replaceCall? hreplace
  have hform : node.form.isOrdinary = true := by
    cases hreplaced <;> rfl
  exact (forming_tidy h r hopen).replaced hreplaced (fun _ _ => trivial)
    (hnode.forall_operands hform)

end ScriptLowering.Canonical
