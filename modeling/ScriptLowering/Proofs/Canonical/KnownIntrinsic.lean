import ScriptLowering.Proofs.Canonical.CallForm
import ScriptLowering.Proofs.Lowering.Vocabulary

/-!
# Forms of library calls stay in the vocabulary

The form that a call has instead mentions types of the vocabulary only (`typesIn_replaceCall?`).
-/

namespace ScriptLowering.Canonical

open Script Lowering

variable {env : Env} {V : Lexicon env} {n : Node}

theorem types_blobElement {element : Ty} {kind : Primitive} {bytes : List UInt8}
    (helement : V.types element) :
    ∀ t ∈ (blobElement env.core element kind bytes).types, V.types t := by
  unfold blobElement
  simp only
  split
  · simp
  · simp
  · simpa using V.primitive .r4
  · simpa using V.primitive .r8
  · split
    · simpa [Literal.ofEnum] using helement
    · simpa [Literal.ofKind] using V.primitive kind

theorem forming_typesIn {r : Retyping} (hr : V.Retypes r) :
    Forming env.types r V.types (Node.TypesIn V.types) where
  boolean := V.boolean
  string := V.string
  type := V.type
  underlying := V.wrapped
  empty := Node.typesIn_empty
  nullOf := Node.typesIn_nullOf.mpr
  defaultOf := Node.typesIn_defaultOf.mpr
  wrapped ht hn := Node.typesIn_mk.mpr ⟨by simpa using ht, by simpa using hn⟩
  unwrapped ht hn := Node.typesIn_mk.mpr ⟨by simpa using ht, by simpa using hn⟩
  operation _ ht hleft hright := Node.typesIn_binary.mpr ⟨ht, hleft, hright⟩
  ternary ht hcondition hfirst hsecond :=
    Node.typesIn_ternary.mpr ⟨ht, hcondition, hfirst, hsecond⟩
  intrinsic ht hns := Node.typesIn_intrinsic.mpr ⟨ht, hns⟩
  invocation hm htarget harguments := Node.typesIn_invocation.mpr ⟨hm, htarget, harguments⟩
  created hn := by
    obtain ⟨htarget, hidentifier⟩ := List.forall_mem_cons.mp (Node.typesIn_mk.mp hn).2
    exact ⟨htarget, (Node.typesIn_mk.mp (List.forall_mem_singleton.mp hidentifier)).1⟩
  filled harray hfilled := by
    have hmember := V.element (V.computedType hr harray) hfilled.element
    obtain ⟨kind, -, hconstants⟩ := hfilled.constants
    refine Node.typesIn_mk.mpr ⟨by simpa using hmember, fun o ho => ?_⟩
    obtain ⟨bytes, rfl⟩ := hconstants o ho
    exact Node.typesIn_literal.mpr (types_blobElement hmember)
  assign _ harray hvalue :=
    Node.typesIn_binary.mpr ⟨V.computedType hr harray, harray, hvalue⟩

theorem typesIn_replaceCall? {r : Retyping} (hr : V.Retypes r) {node : Node}
    (hnode : node.TypesIn V.types) (h : replaceCall? env.types r node = some n) :
    n.TypesIn V.types :=
  (forming_typesIn hr).replaced (replaced_of_replaceCall? h) hnode.form fun _ ho => hnode.operand ho

end ScriptLowering.Canonical
