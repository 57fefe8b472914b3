import ScriptLowering.Proofs.Canonical.TidyPass

/-!
# What passes introduce

The forms of library calls, the expansion of casts, the updates of properties and the declaration of
variables are made of the operands of what they replace and of nodes of routine forms
(`Form.isRoutine`): nodes that have a script form, and update nothing. So a property that nodes of
routine forms have holds everywhere in what replaces a node if it holds everywhere in the node
(`everywhere_replaceCall?`, `everywhere_castExpansion`, `everywhere_propertyUpdate`).
-/

namespace ScriptLowering

open Script

namespace Script.Form

/-- The form of what has no script form. -/
def isUnsupported : Form → Bool
  | unsupported _ => true
  | _ => false

/-- The forms that update their first operand: compound assignments, increments and decrements. -/
def isUpdate : Form → Bool
  | unary op _ => op.isMutating
  | binary op _ => op.compoundBase?.isSome
  | _ => false

/-- The forms that have a script form and update nothing. -/
def isRoutine (form : Form) : Bool :=
  !form.isUnsupported && !form.isUpdate

end Script.Form

namespace Script.Node

/-- A tree of whose nodes all have a property. -/
def Everywhere (p : Node → Prop) (n : Node) : Prop :=
  ∀ m ∈ n.selfAndDescendants, p m

/-- A tree without a part that has no script form. -/
def Supported (n : Node) : Prop :=
  n.Everywhere fun m => m.form.isUnsupported = false

variable {p : Node → Prop} {form : Form} {operands : List Node} {n m : Node}

theorem everywhere_mk : Everywhere p ⟨form, operands⟩ ↔
    p ⟨form, operands⟩ ∧ ∀ o ∈ operands, o.Everywhere p := by
  unfold Everywhere
  rw [selfAndDescendants_mk, List.forall_mem_cons, List.forall_mem_flatMap]

theorem Everywhere.operand (h : n.Everywhere p) {o : Node} (ho : o ∈ n.operands) :
    o.Everywhere p := by
  obtain ⟨form, operands⟩ := n
  exact (everywhere_mk.mp h).2 o ho

theorem not_supported_iff :
    ¬n.Supported ↔ ∃ m ∈ n.selfAndDescendants, m.form.isUnsupported = true := by
  unfold Supported Everywhere
  push Not
  simp only [Bool.not_eq_false]

/-- A property that nodes of routine forms have, whatever their operands are. -/
def IsRoutine (p : Node → Prop) : Prop :=
  ∀ (form : Form) (operands : List Node), form.isRoutine = true → p ⟨form, operands⟩

theorem isRoutine_supported : IsRoutine fun m => m.form.isUnsupported = false := by
  intro form operands h
  exact Bool.not_eq_true' _ ▸ (Bool.and_eq_true_iff.mp h).1

namespace IsRoutine

variable (hp : IsRoutine p)
include hp

section

variable (hform : form.isRoutine = true)
include hform

theorem mk (h : ∀ o ∈ operands, o.Everywhere p) : Everywhere p ⟨form, operands⟩ :=
  everywhere_mk.mpr ⟨hp form operands hform, h⟩

theorem around (hn : n.Everywhere p) : Everywhere p ⟨form, [n]⟩ :=
  hp.mk hform (List.forall_mem_singleton.mpr hn)

theorem pair (hn : n.Everywhere p) (hm : m.Everywhere p) : Everywhere p ⟨form, [n, m]⟩ :=
  hp.mk hform (List.forall_mem_cons.mpr ⟨hn, List.forall_mem_singleton.mpr hm⟩)

theorem leaf : Everywhere p ⟨form, []⟩ :=
  hp.mk hform (List.forall_mem_nil _)

end

theorem comma {ns : List Node} (h : ∀ n ∈ ns, n.Everywhere p) : (Node.comma ns).Everywhere p := by
  unfold Node.comma
  split
  · next only => exact h only List.mem_cons_self
  · exact hp.mk rfl h

end IsRoutine

end Script.Node

namespace Canonical

open Lowering Node

variable {p : Node → Prop} {operands : List Node} {n m : Node} {c : Core} {r : Retyping}
  {h : Hierarchy}

/-! ### Library calls -/

theorem isRoutine_binary {op : BinaryOp} (hop : op.isAssignment = false) (t : Ty) :
    (Form.binary op t).isRoutine = true := by
  cases op <;> first | rfl | cases hop

theorem forming_everywhere (h : Hierarchy) (r : Retyping) (hp : IsRoutine p) :
    Forming h r (fun _ => True) (Node.Everywhere p) where
  empty := hp.leaf rfl
  nullOf _ := hp.leaf rfl
  defaultOf _ := hp.leaf rfl
  wrapped _ hn := hp.around rfl hn
  unwrapped _ hn := hp.around rfl hn
  operation hop _ hleft hright := hp.pair (isRoutine_binary hop _) hleft hright
  ternary _ hcondition hfirst hsecond := hp.mk rfl (by simp [hcondition, hfirst, hsecond])
  intrinsic _ hns := hp.mk rfl hns
  invocation _ htarget harguments :=
    hp.mk rfl (List.forall_mem_cons.mpr ⟨htarget, harguments⟩)
  created hn := ⟨hn.operand List.mem_cons_self, fun _ _ => trivial⟩
  filled _ hfilled := by
    obtain ⟨kind, -, hconstants⟩ := hfilled.constants
    refine hp.mk rfl fun o ho => ?_
    obtain ⟨bytes, rfl⟩ := hconstants o ho
    exact hp.leaf rfl
  assign _ harray hvalue := hp.pair rfl harray hvalue

theorem everywhere_replaceCall? (hp : IsRoutine p) (hn : n.Everywhere p)
    (hreplace : replaceCall? h r n = some m) : m.Everywhere p :=
  (forming_everywhere h r hp).replaced (replaced_of_replaceCall? hreplace) (fun _ _ => trivial)
    fun _ ho => hn.operand ho

section

variable (hp : IsRoutine p)
include hp

/-! ### Passes -/

theorem everywhere_castExpansion {emulateInt64 : Bool} {memo : AssignableMemo} (hn : n.Everywhere p)
    (hm : ((castExpansion h r emulateInt64).reduct? n memo).1 = .ok (some m)) : m.Everywhere p := by
  obtain ⟨target, checked, value, rest, rfl, hexpansion⟩ := expansion_of_reduct (Prod.ext hm rfl)
  intro x hx
  rcases hexpansion.part_or_added x hx with hpart | hadded
  · exact hn.operand List.mem_cons_self x hpart
  · cases hadded <;> exact hp _ _ rfl

theorem splitting_everywhere (c : Core) :
    Splitting c (fun _ => True) (fun _ => True) (fun _ => True) fun _ n => n.Everywhere p where
  temporary _ _ := ⟨trivial, hp.leaf rfl⟩
  empty := hp.leaf rfl
  access _ htarget hindices := hp.mk rfl (List.forall_mem_cons.mpr ⟨htarget, hindices⟩)
  operation hop _ hleft hright := hp.pair (isRoutine_binary hop _) hleft hright
  assign _ _ htarget hvalue := hp.pair rfl htarget hvalue
  comma := hp.comma

theorem everywhere_propertyUpdate {scope : Scope} (hn : n.Everywhere p)
    (hm : ((propertyUpdate c).reduct? n scope).1 = .ok (some m)) : m.Everywhere p := by
  refine (((splitting_everywhere hp c).reduct n trivial ?_).2 m hm).1
  rintro op type property operands value rfl
  have hoperands := (everywhere_mk.mp hn).2
  simp only [List.forall_mem_cons] at hoperands
  exact ⟨trivial, (everywhere_mk.mp hoperands.1).2, hoperands.2.1⟩

theorem everywhere_declareVariables {m : Lowered} (hm : m.body.Everywhere p) :
    (declareVariables m).2.body.Everywhere p := by
  unfold declareVariables
  split
  · exact hm
  · have hdeclaration : Node.Everywhere p
        ⟨.variableDeclaration, (declaredIn m).map .ofVariable⟩ := by
      refine hp.mk rfl fun o ho => ?_
      obtain ⟨v, -, rfl⟩ := List.mem_map.mp ho
      exact hp.leaf rfl
    dsimp only
    generalize m.body = body at hm
    unfold prepend
    split
    · exact hp.mk rfl (List.forall_mem_cons.mpr ⟨hdeclaration, (everywhere_mk.mp hm).2⟩)
    · exact hp.mk rfl (by simp [hdeclaration, hm])

end

theorem follows_everywhere {σ : Type} {w : Reducer σ} {turns : Form → Form → Prop}
    (hrefl : ∀ f, turns f f) (htrans : ∀ {f g k}, turns f g → turns g k → turns f k)
    (hp : ∀ {form : Form} {ns ms : List Node},
      List.Forall₂ (fun n m => turns n.form m.form) ns ms → p ⟨form, ns⟩ → p ⟨form, ms⟩)
    (hstep : ∀ {n m : Node} {s : σ}, (w.reduct? n s).1 = .ok (some m) →
      turns n.form m.form ∧ (n.Everywhere p → m.Everywhere p)) :
    w.Follows fun n m => turns n.form m.form ∧ (n.Everywhere p → m.Everywhere p) where
  refl n := ⟨hrefl n.form, id⟩
  trans h h' := ⟨htrans h.1 h'.1, fun hn => h'.2 (h.2 hn)⟩
  step := hstep
  congr := by
    intro form ns ms hrel
    refine ⟨hrefl form, fun hn => ?_⟩
    obtain ⟨hnode, hns⟩ := everywhere_mk.mp hn
    refine everywhere_mk.mpr ⟨hp (hrel.imp fun _ _ h => h.1) hnode, ?_⟩
    clear hn hnode
    induction hrel with
    | nil => exact hns
    | cons hfirst _ ih =>
      obtain ⟨hn, hrest⟩ := List.forall_mem_cons.mp hns
      exact List.forall_mem_cons.mpr ⟨hfirst.2 hn, ih hrest⟩

/-- A pass keeps a supported body supported. -/
theorem Pass.supported_step {env : Env} (p : Pass) {w : Work} (hw : w.method.body.Supported) :
    (p.step env w).2.method.body.Supported := by
  have hroutine := isRoutine_supported
  have hfollows {σ : Type} {w : Reducer σ}
      (hstep : ∀ {n m : Node} {s : σ}, (w.reduct? n s).1 = .ok (some m) →
        n.Supported → m.Supported) :
      w.Follows fun n m => True ∧ (n.Supported → m.Supported) :=
    follows_everywhere (fun _ => trivial) (fun _ _ => trivial) (fun _ h => h)
      fun hm => ⟨trivial, hstep hm⟩
  cases p with
  | intrinsics =>
    have hforms := hfollows (w := Pass.intrinsicForms env.types w.method.scope.retyping)
      fun hm hn => everywhere_replaceCall? hroutine hn (Except.ok.inj hm)
    exact (hforms.run _ _ _).2 hw
  | propertyUpdates =>
    have hupdates := hfollows (w := propertyUpdate env.core)
      fun hm hn => everywhere_propertyUpdate hroutine hn hm
    exact (hupdates.run _ _ _).2 hw
  | castExpansion =>
    have hcasts := hfollows (w := Canonical.castExpansion env.types w.method.scope.retyping
      env.settings.emulateInt64) fun hm hn => everywhere_castExpansion hroutine hn hm
    exact (hcasts.run _ _ _).2 hw
  | declarations => exact everywhere_declareVariables hroutine hw

/-- A pass records nothing. -/
theorem Pass.diagnostics_step {env : Env} (p : Pass) (w : Work) :
    (p.step env w).2.session.diagnostics = w.session.diagnostics := by
  cases p <;> rfl

end Canonical

end ScriptLowering
