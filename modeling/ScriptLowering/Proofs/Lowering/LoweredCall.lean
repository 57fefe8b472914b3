import ScriptLowering.Proofs.Canonical.Declaration
import ScriptLowering.Proofs.Lowering.AbidingMethod

/-!
# Calls in lowered bodies

Where calls with forms of their own stay calls, every call in a lowered body follows the convention
of its method (`lowered_calls_follow_convention`), wherever it stands in the body and whatever was
done with the trees around it.
-/

namespace ScriptLowering

open Script Lowering

/-- A node that, if it is a call, follows the convention of its method; what the call passes by
reference is one reference. -/
def Script.Node.FollowsConvention (c : Core) (r : Retyping) (n : Node) : Prop :=
  ∀ called dispatch explicitThis, n.form = .invocation called dispatch explicitThis →
    ∃ receiver arguments, n.operands = receiver :: arguments
      ∧ Convention called dispatch explicitThis receiver arguments
      ∧ ∀ a ∈ arguments, a.form.isPassing = true →
        ∃ o, a = ⟨.passByReference, [o]⟩ ∧ o.isReference c r = true

theorem Script.Node.mem_selfAndDescendants_operand {m o : Node} (ho : o ∈ m.operands) :
    ∀ {n : Node}, m ∈ n.selfAndDescendants → o ∈ n.selfAndDescendants
  | ⟨form, operands⟩, hm => by
    rw [selfAndDescendants_mk] at hm ⊢
    refine List.mem_cons_of_mem _ (List.mem_flatMap.mpr ?_)
    rcases List.mem_cons.mp hm with rfl | hbelow
    · refine ⟨o, ho, ?_⟩
      unfold selfAndDescendants
      exact List.mem_cons_self
    · obtain ⟨child, hchild, hm⟩ := List.mem_flatMap.mp hbelow
      exact ⟨child, hchild, mem_selfAndDescendants_operand ho hm⟩

theorem Lowering.Regular.passed_reference {c : Core} {s : Scope} {n : Node} (h : Regular c s n)
    (hpassing : n.form.isPassing = true) :
    ∃ o, n = ⟨.passByReference, [o]⟩ ∧ o.isReference c s.retyping = true := by
  obtain ⟨form, operands⟩ := n
  have hform : form = .passByReference := by
    cases form <;> first | rfl | cases hpassing
  obtain ⟨o, hoperands, href⟩ := h.reference hform
  obtain rfl : operands = [o] := hoperands
  exact ⟨o, by rw [hform], href⟩

/-- Where calls stay calls, every call in a lowered body follows the convention of its method. -/
theorem lowered_calls_follow_convention {env : Env}
    (hkeeps : env.settings.earlyIntrinsics = false) {body : Cil.MethodBody}
    {session session' : Session} {m : Lowered}
    (hlower : lower env body session = (.ok m, session')) :
    ∀ n ∈ m.body.selfAndDescendants, n.FollowsConvention env.core m.scope.retyping := by
  obtain ⟨warnings, -, -, hm⟩ := lower_conforms hlower
  have hregular : ∀ n ∈ m.body.selfAndDescendants, Regular env.core m.scope n :=
    fun n hn => ((hm m rfl).2 n hn).2 hkeeps
  intro n hn called dispatch explicitThis hform
  obtain ⟨receiver, arguments, hoperands, hconvention⟩ :=
    (hregular n hn).call called dispatch explicitThis hform
  refine ⟨receiver, arguments, hoperands, hconvention, fun a ha hpassing => ?_⟩
  -- The argument is a node of the body itself.
  refine (hregular a ?_).passed_reference hpassing
  exact Node.mem_selfAndDescendants_operand (hoperands ▸ List.mem_cons_of_mem _ ha) hn

/-! ### A method that calls -/

/-- How a call selects its target, and whether the receiver is passed explicitly. -/
def Script.Form.call? : Form → Option (Dispatch × Bool)
  | invocation _ dispatch explicitThis => some (dispatch, explicitThis)
  | _ => none

/-- A method of a class that calls a static method with a reference and a value, a method of a
structure, and the method of its base class that it overrides. -/
def callingMethod : Cil.MethodBody :=
  let int := Core.standard.int32
  let void := Core.standard.void
  let base : Ty := .named (.plain 40 "App" "P" (.ofFile "One") .classType)
  let own : Ty := .named (.plain 41 "App" "Q" (.ofFile "One") .classType)
  let pair : Ty := .named (.plain 42 "App" "Pair" (.ofFile "One") .valueType)
  let this : Cil.Variable := ⟨"this", own, .this, false⟩
  let count : Cil.Variable := ⟨"count", int, .localSlot 0, false⟩
  let both : Cil.Variable := ⟨"both", pair, .localSlot 1, false⟩
  let address (v : Cil.Variable) : Cil.Expr := .plain .ldloca (.var v) []
  let read (v : Cil.Variable) : Cil.Expr := .plain .ldloc (.var v) []
  let print : Method := ⟨"Print", base, void, [], [], { MethodFlags.empty with isVirtual := true }⟩
  let add : Method :=
    ⟨"Add", base, void, [⟨"sum", .byRef int⟩, ⟨"amount", int⟩], [],
      { MethodFlags.empty with isStatic := true }⟩
  let clear : Method := ⟨"Clear", pair, void, [], [], .empty⟩
  let call (m : Method) (arguments : List Cil.Expr) : Cil.Stmt :=
    .expression (.plain .call (.method m) arguments)
  { method := { print with declaringType := own }
    this? := some this
    parameters := []
    locals := [count, both]
    statements :=
      [call add [address count, read count], call clear [address both], call print [read this]] }

/-- A run without corrections, with the core types only. -/
def rawEnv : Env :=
  ⟨.ofCore .standard, .empty, .raw⟩

/-- The calls of the calling method select their targets in three ways and follow the conventions of
their methods. -/
theorem callingMethod_follows_conventions :
    ∃ m session', lower rawEnv callingMethod .start = (.ok m, session')
      ∧ m.body.selfAndDescendants.filterMap (·.form.call?)
        = [(.static, false), (.direct, true), (.base, true)]
      ∧ ∀ n ∈ m.body.selfAndDescendants,
        n.FollowsConvention rawEnv.core m.scope.retyping := by
  have hchecks : (lower rawEnv callingMethod .start).1.toOption.map
      (fun m => m.body.selfAndDescendants.filterMap (·.form.call?))
        = some [(.static, false), (.direct, true), (.base, true)] := by
    decide +kernel
  rcases hlower : lower rawEnv callingMethod .start
    with ⟨e | m, session'⟩ <;> rw [hlower] at hchecks
  · cases hchecks
  · refine ⟨m, session', rfl, Option.some.inj hchecks, ?_⟩
    exact lowered_calls_follow_convention rfl hlower

end ScriptLowering
