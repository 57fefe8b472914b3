import ScriptLowering.Proofs.Canonical.Supported
import ScriptLowering.Proofs.Lowering.Ensures
import ScriptLowering.Proofs.Packing.Firm

/-!
# What lowering leaves behind

A `Job` is the lowering of one method. While it goes on, variables are added and may become packed
arrays, and warnings about the method are recorded (`State.Proceeds`).
-/

namespace ScriptLowering

/-- A warning about a method. -/
def Diagnostic.Warns (d : Diagnostic) (m : Method) : Prop :=
  d.severity = .warning ∧ d.method? = some m.fullName

namespace Script.Form

/-- The plain assignment. -/
def isPlainAssignment : Form → Bool
  | binary .assign _ => true
  | _ => false

/-- The forms that take arguments passed by reference: calls, and what becomes of calls of
constructors, getters and setters. -/
def takesPassed : Form → Bool
  | invocation .. | newObject .. | propertyAccess _ => true
  | binary .assign _ => true
  | _ => false

/-- The forms that are neither variables nor calls nor arguments passed by reference. -/
def isFree : Form → Bool
  | var _ | invocation .. | passByReference => false
  | _ => true

/-- The forms that conform over any values. -/
def isSimple (form : Form) : Bool :=
  form.isFree && form.isRoutine

/-- The simple forms whose type is known from the form alone. -/
def isCommon (form : Form) : Bool :=
  form.isSimple && form.knowsType

variable {form : Form}

theorem isSimple_iff : form.isSimple = true ↔ form.isFree = true ∧ form.isRoutine = true :=
  Bool.and_eq_true_iff

theorem isPassing_of_isFree (h : form.isFree = true) : form.isPassing = false := by
  cases form <;> first | rfl | cases h

theorem isPlainAssignment_of_takesPassed (h : form.takesPassed = false) :
    form.isPlainAssignment = false := by
  cases form with
  | binary op result => cases op <;> first | rfl | cases h
  | _ => rfl

end Script.Form

namespace Lowering

open Script

/-! ### Jobs and their progress -/

/-- The lowering of a method: its surroundings, the method, and the number of diagnostics that were
recorded before. -/
structure Job where
  env : Env
  method : Method
  recorded : Nat

namespace Job

/-- The core module. -/
def core (j : Job) : Core :=
  j.env.core

/-- Calls with forms of their own stay calls while they are lowered. -/
def KeepsCalls (j : Job) : Prop :=
  j.env.settings.earlyIntrinsics = false

/-- A state of the job. -/
structure Fits (j : Job) (s : State) : Prop where
  typed : s.context.scope.Typed
  recorded : j.recorded ≤ s.session.diagnostics.entries.length

/-- A warning about the method has been recorded. -/
def Warned (j : Job) (s : State) : Prop :=
  ∃ d ∈ s.session.diagnostics.entries.drop j.recorded, d.Warns j.method

end Job

/-- A state that came from another one by lowering a method. -/
structure State.Proceeds (m : Method) (s s' : State) : Prop where
  advances : s.Advances s'
  repacks : s.context.scope.Repacks s'.context.scope
  typed : s.context.scope.Typed → s'.context.scope.Typed
  records : ∃ warnings, s'.session.diagnostics.entries = s.session.diagnostics.entries ++ warnings
    ∧ ∀ d ∈ warnings, d.Warns m

namespace State.Proceeds

variable {m : Method} {s s₁ s₂ : State}

theorem refl (s : State) : s.Proceeds m s :=
  ⟨.refl s, .refl _, id, [], by simp⟩

theorem trans (h : s.Proceeds m s₁) (h' : s₁.Proceeds m s₂) : s.Proceeds m s₂ where
  advances := h.advances.trans h'.advances
  repacks := h.repacks.trans h'.repacks
  typed hs := h'.typed (h.typed hs)
  records := by
    obtain ⟨warnings, hentries, hwarn⟩ := h.records
    obtain ⟨warnings', hentries', hwarn'⟩ := h'.records
    refine ⟨warnings ++ warnings', by rw [hentries', hentries, List.append_assoc], ?_⟩
    exact List.forall_mem_append.mpr ⟨hwarn, hwarn'⟩

theorem subset (h : s.Proceeds m s₁) :
    s.context.scope.allVariables ⊆ s₁.context.scope.allVariables :=
  h.repacks.subset

end State.Proceeds

section

variable {j : Job} {s s' : State}

theorem Job.Fits.later (h : s.Proceeds j.method s') (hs : j.Fits s) : j.Fits s' where
  typed := h.typed hs.typed
  recorded := by
    obtain ⟨warnings, hentries, -⟩ := h.records
    have hrecorded := hs.recorded
    rw [hentries, List.length_append]
    omega

theorem Job.Warned.later (h : s.Proceeds j.method s') (hs : j.Warned s) : j.Warned s' := by
  obtain ⟨warnings, hentries, -⟩ := h.records
  obtain ⟨d, hd, hwarns⟩ := hs
  refine ⟨d, ?_, hwarns⟩
  rw [hentries, List.drop_append]
  exact List.mem_append_left _ hd

end

/-! ### Calls -/

/-- Nodes of one form and type, whatever types the variables have. -/
structure Alike (c : Core) (n m : Node) : Prop where
  form : n.form = m.form
  type : ∀ r, n.computedType c r = m.computedType c r

variable {c : Core} {ns ms : List Node} {form : Form}

theorem Alike.refl (n : Node) : Alike c n n :=
  ⟨rfl, fun _ => rfl⟩

theorem typeAt_of_alike (h : List.Forall₂ (Alike c) ns ms) (r : Retyping) (index : Nat) :
    Node.typeAt c r ns index = Node.typeAt c r ms index := by
  induction h generalizing index with
  | nil => rfl
  | cons hfirst _ ih =>
    cases index with
    | zero => rw [Node.typeAt, Node.typeAt, hfirst.type]
    | succ index => rw [Node.typeAt, Node.typeAt, ih]

theorem lastType_of_alike (h : List.Forall₂ (Alike c) ns ms) (r : Retyping) :
    Node.lastType c r ns = Node.lastType c r ms := by
  induction h with
  | nil => rfl
  | cons hfirst hrest ih =>
    cases hrest with
    | nil => rw [Node.lastType, Node.lastType, hfirst.type]
    | cons => rw [Node.lastType, Node.lastType, ih]

/-- A form over alike operands. -/
theorem Alike.congr (form : Form) (h : List.Forall₂ (Alike c) ns ms) :
    Alike c ⟨form, ns⟩ ⟨form, ms⟩ where
  form := rfl
  type r := by
    have hat := typeAt_of_alike h r
    rw [Node.computedType, Node.computedType, hat, lastType_of_alike h r]
    cases form.typeRule c r <;> simp only [hat]

variable {n : Node}

theorem Alike.isReference {m : Node} (h : Alike c n m) (r : Retyping) :
    n.isReference c r = m.isReference c r := by
  unfold Node.isReference
  rw [h.form, h.type]

/-- The convention is about forms. -/
theorem Convention.replace {m : Method} {dispatch : Dispatch} {explicitThis : Bool}
    {receiver receiver' : Node} {arguments arguments' : List Node}
    (h : Convention m dispatch explicitThis receiver arguments)
    (hreceiver : Alike c receiver' receiver)
    (harguments : List.Forall₂ (Alike c) arguments' arguments) :
    Convention m dispatch explicitThis receiver' arguments' where
  static_iff := h.static_iff
  empty hstatic := by
    unfold Node.isEmpty
    rw [hreceiver.form]
    exact h.empty hstatic
  passing := by
    intro i a' p ha' hp
    obtain ⟨hlength, hget⟩ := List.forall₂_iff_get.mp harguments
    obtain ⟨hi', rfl⟩ := List.getElem?_eq_some_iff.mp ha'
    have hi : i < arguments.length := hlength ▸ hi'
    have hform := (hget i hi' hi).form
    change arguments'[i].form.isPassing = _
    rw [← h.passing i arguments[i] p (List.getElem?_eq_getElem hi) hp]
    exact congrArg Form.isPassing hform
  explicit := h.explicit
  base hbase := by
    refine ⟨(h.base hbase).1, ?_⟩
    unfold isOwnReceiver Node.var?
    rw [hreceiver.form]
    exact (h.base hbase).2

/-! ### Nodes -/

/-- A node that is right about calls: they follow their conventions, what is passed by reference is
one reference, nothing else takes what is passed by reference, and operands have firm types, except
those of plain assignments. Variables are those of the method. -/
structure Regular (c : Core) (s : Scope) (n : Node) : Prop where
  bound : ∀ v, n.form = .var v → v ∈ s.allVariables
  call : ∀ m dispatch explicitThis, n.form = .invocation m dispatch explicitThis →
    ∃ receiver arguments, n.operands = receiver :: arguments
      ∧ Convention m dispatch explicitThis receiver arguments
  reference : n.form = .passByReference →
    ∃ o, n.operands = [o] ∧ o.isReference c s.retyping = true
  passing : n.form.takesPassed = false → ∀ o ∈ n.operands, o.form.isPassing = false
  typed : n.form.isPlainAssignment = false → ∀ o ∈ n.operands, Firm c s o

variable {s : Scope}

/-- Being right about calls lasts. -/
theorem Regular.later {s' : Scope} (h : s.Repacks s') (hn : Regular c s n) : Regular c s' n where
  bound v hform := h.subset (hn.bound v hform)
  call := hn.call
  reference hform := by
    obtain ⟨o, hoperands, href⟩ := hn.reference hform
    refine ⟨o, hoperands, ?_⟩
    have hfirm : Firm c s o := hn.typed (by rw [hform]; rfl) o (by rw [hoperands]; simp)
    unfold Node.isReference at href ⊢
    rw [hfirm.isByRef_eq h]
    exact href
  passing := hn.passing
  typed hform o ho := (hn.typed hform o ho).later h

theorem forall_mem_of_alike {p : Node → Prop} (hp : ∀ n m, Alike c n m → p m → p n)
    (h : List.Forall₂ (Alike c) ns ms) (hms : ∀ m ∈ ms, p m) : ∀ n ∈ ns, p n := by
  induction h with
  | nil => exact hms
  | cons hfirst _ ih =>
    obtain ⟨hm, hrest⟩ := List.forall_mem_cons.mp hms
    exact List.forall_mem_cons.mpr ⟨hp _ _ hfirst hm, ih hrest⟩

theorem Regular.replace (hn : Regular c s ⟨form, ms⟩) (h : List.Forall₂ (Alike c) ns ms) :
    Regular c s ⟨form, ns⟩ where
  bound := hn.bound
  call m dispatch explicitThis hform := by
    obtain ⟨receiver, arguments, hoperands, hconvention⟩ := hn.call m dispatch explicitThis hform
    obtain rfl : ms = receiver :: arguments := hoperands
    cases h with
    | cons hreceiver harguments =>
      exact ⟨_, _, rfl, hconvention.replace hreceiver harguments⟩
  reference hform := by
    obtain ⟨o, hoperands, href⟩ := hn.reference hform
    obtain rfl : ms = [o] := hoperands
    cases h with
    | cons hfirst hrest =>
      cases hrest with
      | nil => exact ⟨_, rfl, (hfirst.isReference _).trans href⟩
  passing hform :=
    forall_mem_of_alike (fun _ _ halike hm => (congrArg Form.isPassing halike.form).trans hm) h
      (hn.passing hform)
  typed hform :=
    forall_mem_of_alike (fun _ _ halike hm => hm.congr halike.type) h (hn.typed hform)

theorem regular_of_isFree {operands : List Node} (hform : form.isFree = true)
    (hpassing : form.takesPassed = false → ∀ o ∈ operands, o.form.isPassing = false)
    (htyped : form.isPlainAssignment = false → ∀ o ∈ operands, Firm c s o) :
    Regular c s ⟨form, operands⟩ where
  bound v hvar := by
    obtain rfl : form = .var v := hvar
    cases hform
  call m dispatch explicitThis hcall := by
    obtain rfl : form = .invocation m dispatch explicitThis := hcall
    cases hform
  reference hpassed := by
    obtain rfl : form = .passByReference := hpassed
    cases hform
  passing := hpassing
  typed := htyped

/-- A node as lowering leaves it: what has no script form was warned of, what is updated is a
location, and calls are right where they stay calls. -/
structure Conforms (j : Job) (s : State) (n : Node) : Prop where
  supported : n.form.isUnsupported = true → j.Warned s
  updated : n.form.isUpdate = true → ∀ o, n.operands.head? = some o → o.isLocation = true
  regular : j.KeepsCalls → Regular j.core s.context.scope n

variable {j : Job}

theorem Conforms.later {s s' : State} (h : s.Proceeds j.method s') (hn : Conforms j s n) :
    Conforms j s' n where
  supported hform := (hn.supported hform).later h
  updated := hn.updated
  regular hj := (hn.regular hj).later h.repacks

theorem Conforms.replace {s : State} (hn : Conforms j s ⟨form, ms⟩)
    (h : List.Forall₂ (Alike j.core) ns ms) : Conforms j s ⟨form, ns⟩ where
  supported := hn.supported
  updated hform o ho := by
    cases h with
    | nil => cases ho
    | cons hfirst _ =>
      cases ho
      exact (congrArg Form.isLocation hfirst.form).trans (hn.updated hform _ rfl)
  regular hj := (hn.regular hj).replace h

theorem conforms_of_isRoutine {s : State} {operands : List Node} (hform : form.isRoutine = true)
    (h : j.KeepsCalls → Regular j.core s.context.scope ⟨form, operands⟩) :
    Conforms j s ⟨form, operands⟩ := by
  obtain ⟨hsupported, hupdate⟩ := Bool.and_eq_true_iff.mp hform
  rw [Bool.not_eq_true'] at hsupported hupdate
  refine ⟨fun hform => ?_, fun hform => ?_, h⟩
  · exact absurd (hsupported.symm.trans hform) Bool.false_ne_true
  · exact absurd (hupdate.symm.trans hform) Bool.false_ne_true

/-! ### Trees -/

/-- A tree of conforming nodes. -/
def Orderly (j : Job) (s : State) (n : Node) : Prop :=
  ∀ m ∈ n.selfAndDescendants, Conforms j s m

/-- A tree that may be an argument of a call. -/
structure Passed (j : Job) (s : State) (n : Node) : Prop where
  orderly : Orderly j s n
  typed : j.KeepsCalls → Firm j.core s.context.scope n

/-- A tree that is a value, and no argument passed by reference. -/
structure Proper (j : Job) (s : State) (n : Node) : Prop extends Passed j s n where
  plain : j.KeepsCalls → n.form.isPassing = false

section

variable {j : Job} {s s' : State} {n : Node} {form : Form} {operands : List Node}

theorem orderly_mk : Orderly j s ⟨form, operands⟩ ↔
    Conforms j s ⟨form, operands⟩ ∧ ∀ o ∈ operands, Orderly j s o :=
  Node.everywhere_mk

theorem Orderly.root (h : Orderly j s n) : Conforms j s n :=
  h n (by unfold Node.selfAndDescendants; exact List.mem_cons_self)

theorem Orderly.operand (h : Orderly j s n) {o : Node} (ho : o ∈ n.operands) : Orderly j s o :=
  Node.Everywhere.operand h ho

theorem Orderly.proper_operand (h : Orderly j s n) (hform : n.form.takesPassed = false) {o : Node}
    (ho : o ∈ n.operands) : Proper j s o where
  orderly := h.operand ho
  typed hj :=
    (h.root.regular hj).typed (Form.isPlainAssignment_of_takesPassed hform) o ho
  plain hj := (h.root.regular hj).passing hform o ho

theorem Orderly.later (h : s.Proceeds j.method s') (hn : Orderly j s n) : Orderly j s' n :=
  fun m hm => (hn m hm).later h

theorem Passed.later (h : s.Proceeds j.method s') (hn : Passed j s n) : Passed j s' n :=
  ⟨hn.orderly.later h, fun hj => (hn.typed hj).later h.repacks⟩

theorem Proper.later (h : s.Proceeds j.method s') (hn : Proper j s n) : Proper j s' n :=
  ⟨hn.toPassed.later h, hn.plain⟩

theorem Proper.of_eq (hn : Proper j s n) (hscope : s'.context.scope = s.context.scope)
    (hsession : s'.session = s.session) : Proper j s' n := by
  refine ⟨⟨fun m hm => ?_, ?_⟩, hn.plain⟩
  · have hconforms := hn.orderly m hm
    refine ⟨?_, hconforms.updated, ?_⟩
    · unfold Job.Warned
      rw [hsession]
      exact hconforms.supported
    · rw [hscope]
      exact hconforms.regular
  · rw [hscope]
    exact hn.typed

/-! ### Making nodes -/

/-- A simple form over values conforms. -/
theorem conforms_simple (hform : form.isSimple = true) (h : ∀ o ∈ operands, Proper j s o) :
    Conforms j s ⟨form, operands⟩ := by
  obtain ⟨hfree, hroutine⟩ := Form.isSimple_iff.mp hform
  refine conforms_of_isRoutine hroutine fun hj => regular_of_isFree hfree ?_ ?_
  · exact fun _ o ho => (h o ho).plain hj
  · exact fun _ o ho => (h o ho).typed hj

theorem orderly_simple (hform : form.isSimple = true) (h : ∀ o ∈ operands, Proper j s o) :
    Orderly j s ⟨form, operands⟩ :=
  orderly_mk.mpr ⟨conforms_simple hform h, fun o ho => (h o ho).orderly⟩

theorem Proper.simple (hform : form.isSimple = true) (h : ∀ o ∈ operands, Proper j s o)
    (htyped : j.KeepsCalls → Firm j.core s.context.scope ⟨form, operands⟩) :
    Proper j s ⟨form, operands⟩ where
  orderly := orderly_simple hform h
  typed := htyped
  plain _ := Form.isPassing_of_isFree (Form.isSimple_iff.mp hform).1

/-- A common form over values is a value. -/
theorem Proper.common (hform : form.isCommon = true) (h : ∀ o ∈ operands, Proper j s o) :
    Proper j s ⟨form, operands⟩ := by
  obtain ⟨hsimple, hknown⟩ := Bool.and_eq_true_iff.mp hform
  exact .simple hsimple h fun _ => .known hknown

/-- A common form over one value. -/
theorem Proper.around (hn : Proper j s n) (hform : form.isCommon = true) :
    Proper j s ⟨form, [n]⟩ :=
  .common hform (by simpa using hn)

/-- A leaf of a common form. -/
theorem proper_leaf (hform : form.isCommon = true) : Proper j s ⟨form, []⟩ :=
  .common hform (by simp)

theorem proper_empty : Proper j s .empty :=
  proper_leaf rfl

theorem proper_literal {l : Literal} : Proper j s (.literal l) :=
  proper_leaf rfl

theorem proper_ofVariable {v : Variable} (hv : v ∈ s.context.scope.allVariables) :
    Proper j s (.ofVariable v) where
  orderly := by
    refine orderly_mk.mpr ⟨⟨nofun, nofun, fun _ => ⟨?_, nofun, nofun, by simp, by simp⟩⟩,
      by simp⟩
    rintro w ⟨⟩
    exact hv
  typed _ := .ofVariable hv
  plain _ := rfl

theorem Proper.updating {rest : List Node} (hn : Proper j s n) (hlocation : n.isLocation = true)
    (hrest : ∀ o ∈ rest, Proper j s o) (hfree : form.isFree = true)
    (hknown : form.knowsType = true) (hsupported : form.isUnsupported = false) :
    Proper j s ⟨form, n :: rest⟩ := by
  have h : ∀ o ∈ n :: rest, Proper j s o := List.forall_mem_cons.mpr ⟨hn, hrest⟩
  refine ⟨⟨orderly_mk.mpr ⟨⟨fun hform => ?_, fun _ o ho => ?_, fun hj => ?_⟩,
    fun o ho => (h o ho).orderly⟩, fun _ => .known hknown⟩, fun _ => ?_⟩
  · exact absurd (hsupported.symm.trans hform) Bool.false_ne_true
  · cases ho
    exact hlocation
  · exact regular_of_isFree hfree (fun _ o ho => (h o ho).plain hj)
      fun _ o ho => (h o ho).typed hj
  · exact Form.isPassing_of_isFree hfree

theorem Proper.dereference (hn : Proper j s n)
    (href : (n.computedType j.core s.context.scope.retyping).isByRef = true) :
    Proper j s (.dereference n) :=
  .simple rfl (by simpa using hn) fun hj => (hn.typed hj).referent (.inl rfl) href

theorem Proper.takeReference (hn : Proper j s n) : Proper j s ⟨.takeReference, [n]⟩ :=
  .simple rfl (by simpa using hn) fun hj => (hn.typed hj).takeReference

theorem Proper.structCopy (hn : Proper j s n) : Proper j s (.structCopy n) :=
  .simple rfl (by simpa using hn) fun hj => (hn.typed hj).structCopy

theorem Proper.writeThrough {value : Node} (hn : Proper j s n) (hvalue : Proper j s value) :
    Proper j s ⟨.writeThrough, [n, value]⟩ :=
  .simple rfl (by simp [hn, hvalue]) fun hj => (hvalue.typed hj).writeThrough

/-- Values in sequence. -/
theorem Proper.comma (h : ∀ n ∈ ns, Proper j s n) : Proper j s (.comma ns) := by
  unfold Node.comma
  split
  · next only => exact h only List.mem_cons_self
  · refine .simple rfl h fun hj => ?_
    rcases List.eq_nil_or_concat ns with rfl | ⟨before, last, rfl⟩
    · exact fun _ _ _ _ => .same _
    · rw [List.concat_eq_append] at h ⊢
      exact .comma ((h last (by simp)).typed hj)

/-- A value after others. -/
theorem Proper.afterPrelude {prelude : List Node} (hprelude : ∀ m ∈ prelude, Proper j s m)
    (hn : Proper j s n) : Proper j s (afterPrelude prelude n) :=
  .comma (List.forall_mem_append.mpr ⟨hprelude, by simpa using hn⟩)

theorem Orderly.assign {value : Node} {type : Ty} (hn : Orderly j s n)
    (hvalue : Orderly j s value) : Proper j s (.binary .assign n value type) where
  orderly := by
    refine orderly_mk.mpr ⟨⟨nofun, nofun, fun _ => regular_of_isFree rfl nofun nofun⟩, ?_⟩
    simp [hn, hvalue]
  typed _ := .known rfl
  plain _ := rfl

theorem Proper.taking (hform : form.isCommon = true) (htakes : form.takesPassed = true)
    (h : ∀ o ∈ operands, Passed j s o) : Proper j s ⟨form, operands⟩ := by
  obtain ⟨hsimple, hknown⟩ := Bool.and_eq_true_iff.mp hform
  obtain ⟨hfree, hroutine⟩ := Form.isSimple_iff.mp hsimple
  have hconforms : Conforms j s ⟨form, operands⟩ := by
    refine conforms_of_isRoutine hroutine fun hj => regular_of_isFree hfree (fun htakesNot => ?_) ?_
    · rw [htakes] at htakesNot
      cases htakesNot
    · exact fun _ o ho => (h o ho).typed hj
  refine ⟨⟨orderly_mk.mpr ⟨hconforms, fun o ho => (h o ho).orderly⟩, fun _ => .known hknown⟩, ?_⟩
  exact fun _ => Form.isPassing_of_isFree hfree

theorem Proper.passByReference (hn : Proper j s n)
    (href : n.isReference j.core s.context.scope.retyping = true) :
    Passed j s ⟨.passByReference, [n]⟩ where
  orderly := by
    refine orderly_mk.mpr
      ⟨⟨nofun, nofun, fun hj => ⟨nofun, nofun, fun _ => ⟨n, rfl, href⟩, ?_, ?_⟩⟩, ?_⟩
    · exact fun _ => by simpa using hn.plain hj
    · exact fun _ => by simpa using hn.typed hj
    · simpa using hn.orderly
  typed hj := (hn.typed hj).passByReference

theorem Proper.invocation {m : Method} {dispatch : Dispatch} {explicitThis : Bool}
    {arguments : List Node}
    (hconvention : j.KeepsCalls → Convention m dispatch explicitThis n arguments)
    (hn : Proper j s n) (harguments : ∀ a ∈ arguments, Passed j s a) :
    Proper j s (.invocation m dispatch explicitThis n arguments) where
  orderly := by
    refine orderly_mk.mpr ⟨⟨nofun, nofun, fun hj => ⟨nofun, ?_, nofun, nofun, fun _ => ?_⟩⟩, ?_⟩
    · rintro m dispatch explicitThis ⟨⟩
      exact ⟨n, arguments, rfl, hconvention hj⟩
    · exact List.forall_mem_cons.mpr ⟨hn.typed hj, fun a ha => (harguments a ha).typed hj⟩
    · exact List.forall_mem_cons.mpr ⟨hn.orderly, fun a ha => (harguments a ha).orderly⟩
  typed _ := .known rfl
  plain _ := rfl

theorem proper_unsupported {description : String} (hwarned : j.Warned s)
    (h : ∀ o ∈ operands, Proper j s o) : Proper j s (.unsupported description operands) where
  orderly := by
    refine orderly_mk.mpr ⟨⟨fun _ => hwarned, nofun, fun hj => regular_of_isFree rfl ?_ ?_⟩, ?_⟩
    · exact fun _ o ho => (h o ho).plain hj
    · exact fun _ o ho => (h o ho).typed hj
    · exact fun o ho => (h o ho).orderly
  typed _ := .known rfl
  plain _ := rfl

theorem Orderly.proper_getD (h : Orderly j s n) (hform : n.form.takesPassed = false)
    {o? : Option Node} (ho : ∀ o, o? = some o → o ∈ n.operands) :
    Proper j s (o?.getD .empty) := by
  cases o? with
  | none => exact proper_empty
  | some o => exact h.proper_operand hform (ho o rfl)

theorem Orderly.proper_firstOperand (h : Orderly j s n) (hform : n.form.takesPassed = false) :
    Proper j s (firstOperand n) :=
  h.proper_getD hform fun _ ho => List.mem_of_head? ho

end

end Lowering

end ScriptLowering
