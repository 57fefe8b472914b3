import ScriptLowering.Proofs.Canonical.KnownIntrinsic
import ScriptLowering.Proofs.Lowering.Lifting
import ScriptLowering.Proofs.Lowering.Method
import ScriptLowering.Proofs.Lowering.Vocabulary

/-!
# Lowering stays in a vocabulary

A method whose types and calls are of a vocabulary lowers to trees over the vocabulary, and all that
is asked on the way is about types and methods of the vocabulary, so that faithful sessions stay
faithful (`faithful_lower`). Lowering keeps to the course of such states (`Vocabulary.course`): the
criterion `Lowerer.knownTrees` is closed.
-/

namespace ScriptLowering.Lowering

open Script

/-! ### States over a vocabulary -/

/-- The course of states whose memory and variables are of a vocabulary. -/
def Vocabulary.course {env : Env} (V : Vocabulary env) : Course where
  Fits s := s.session.Faithful V ∧ s.context.scope.TypesIn V
  Later _ _ := True
  Fails _ _ := True
  refl _ := trivial
  trans _ _ := trivial
  fails_of_later _ _ := trivial

/-- A computation that stays in a vocabulary, and whose answer satisfies a condition. -/
abbrev Confined {env : Env} {α : Type} (V : Vocabulary env) (x : Lower α) (s : State)
    (post : α → Prop) : Prop :=
  V.course.Keeps x s fun _ => post

namespace Confined

variable {env : Env} {α : Type} {V : Vocabulary env} {s : State} {post : α → Prop}

/-- A computation that answers at once. -/
theorem step {x : Lower α} {a : α} {s' : State} (hrun : x.run s = (.ok a, s'))
    (h : s.session.Faithful V → s.context.scope.TypesIn V →
      (s'.session.Faithful V ∧ s'.context.scope.TypesIn V) ∧ post a) : Confined V x s post := by
  intro hs
  obtain ⟨hs', ha⟩ := h hs.1 hs.2
  rw [hrun]
  exact ⟨⟨hs', trivial⟩, ha⟩

theorem modifyTable {f : Table → Table}
    (hf : s.context.scope.TypesIn V → (f s.context.table).TypesIn V) :
    Confined V (Lower.modifyTable f) s fun _ => True :=
  step rfl fun hsession hscope => ⟨⟨hsession, hf hscope⟩, trivial⟩

theorem within {x : Lower α} {enter restore : Context → Context}
    (henter : (enter s.context).scope = s.context.scope)
    (hrestore : ∀ c, (restore c).scope = c.scope)
    (hx : Confined V x { s with context := enter s.context } post) :
    Confined V (Lower.modifyContext enter >>= fun _ => Lower.thenRestore x restore) s post := by
  refine Course.Keeps.within hx (fun hs => ⟨hs.1, ?_⟩) (fun s' _ hs' => ⟨⟨hs'.1, ?_⟩, trivial⟩)
    (fun _ _ _ ha => ha) fun _ _ => trivial
  · exact henter.symm ▸ hs.2
  · exact (hrestore s'.context).symm ▸ hs'.2

theorem withTarget {x : Lower α} {target : JumpTarget} (hx : Confined V x (s.inside target) post) :
    Confined V (Lower.withTarget target x) s post :=
  within rfl (fun _ => rfl) hx

theorem oneLevelDown {x : Lower α} (hx : ∀ s, Confined V x s post) :
    Confined V (Lower.oneLevelDown x) s post := by
  refine .reading s.context rfl ?_
  unfold Context.enter
  split
  · exact .failing trivial
  · exact .reading _ rfl (within rfl (fun _ => rfl) (hx _))

theorem declaring {type : Ty} (ht : V.types type) {f : Variable → α} :
    Confined V
      (do
        let (v, table) := (← Lower.context).table.newTemporary type
        Lower.modifyTable fun _ => table
        return f v) s
      (fun a => ∃ v, V.types v.declaredType ∧ a = f v) := by
  refine .fitting fun hs => .reading s.context rfl ?_
  obtain ⟨hv, hscope⟩ := hs.2.addTemporary _ ht
  exact (modifyTable fun _ => hscope).bind fun _ _ _ _ => .pure ⟨_, hv, rfl⟩

theorem askMembers {ask : MemberMemo → α × MemberMemo} {answer : α}
    (hask : ∀ {m : Memory}, m.Faithful V →
      (m.askMembers ask).1 = answer ∧ (m.askMembers ask).2.Faithful V)
    (hpost : post answer) : Confined V (Lower.askMembers ask) s post := by
  refine step rfl fun hsession hscope => ?_
  obtain ⟨hanswer, hfaithful⟩ := hask hsession
  exact ⟨⟨hfaithful, hscope⟩, hanswer ▸ hpost⟩

end Confined

/-! ### Trees -/

section

variable {env : Env} {V : Lexicon env} {n : Node}

theorem typesIn_firstOperand (hn : n.TypesIn V.types) : (firstOperand n).TypesIn V.types :=
  hn.getD fun _ ho => List.mem_of_head? ho

theorem typesIn_located {c : Core} {r : Retyping} {location : Node} (h : Located c r n location)
    (hn : n.TypesIn V.types) : location.TypesIn V.types := by
  have hfirst := typesIn_firstOperand hn
  cases h with
  | taken => exact hfirst
  | member => exact Node.typesIn_fieldAccess.mpr ⟨hn.form, hfirst⟩
  | @element t _ =>
    refine Node.typesIn_elementAccess.mpr ⟨hn.form t (by simp), hfirst, ?_⟩
    exact fun i hi => hn.operand (List.mem_of_mem_tail hi)
  | declared | referent => exact Node.typesIn_dereference.mpr hn
  | result => exact Node.typesIn_mk.mpr ⟨by simp, by simpa using hn⟩
  | slot | itself => exact hn

theorem typesIn_uncopied (hn : n.TypesIn V.types) : (Lowerer.uncopied n).TypesIn V.types := by
  unfold Lowerer.uncopied
  split
  · exact typesIn_firstOperand hn
  · exact hn

theorem typesIn_afterPrelude {prelude : List Node} (hprelude : ∀ m ∈ prelude, m.TypesIn V.types)
    (hn : n.TypesIn V.types) : (afterPrelude prelude n).TypesIn V.types := by
  refine Node.TypesIn.comma fun m hm => ?_
  rcases List.mem_append.mp hm with hmem | hlast
  · exact hprelude m hmem
  · rw [List.mem_singleton.mp hlast]
    exact hn

end

namespace Lowerer

variable {g : Lowerer} {V : Vocabulary g.env} {e : Cil.Expr} {n : Node}

/-! ### The criterion -/

theorem confined_resolve {v : Cil.Variable} {s : State} (hv : V.types v.type) :
    Confined V (g.resolve v) s fun w => V.types w.declaredType := by
  refine .fitting fun hs => .reading s.context rfl ?_
  cases hresolve : s.context.table.resolve g.env.types v with
  | error e => exact .failing trivial
  | ok answer =>
    obtain ⟨hw, htable⟩ := Scope.TypesIn.declare hs.2 hv hresolve
    exact .reading answer rfl ((Confined.modifyTable fun _ => htable).bind fun _ _ _ _ => .pure hw)

theorem confined_asks {α : Type} {ask : MemberMemo → α × MemberMemo} {answer : α} {post : α → Prop}
    {s : State} (hask : MemberMemo.Asks g.env.directives ask answer) (hpost : post answer) :
    Confined V (Lower.askMembers ask) s post :=
  .askMembers (fun hm => hm.asks hask) hpost

theorem confined_earlyForm? {s : State} (hn : n.TypesIn V.types) :
    Confined V (g.earlyForm? n) s fun r? => ∀ r, r? = some r → r.TypesIn V.types := by
  refine .ite (fun _ => .fitting fun hs => .reading s.context rfl (.pure ?_)) fun _ => .pure nofun
  exact fun r hr => Canonical.typesIn_replaceCall? hs.2.retyping hn hr

theorem typesIn_typeTargetUnder {t : Ty} (ht : V.types t) (directive? : Option TypeDirective) :
    (typeTargetUnder g.core directive? t).TypesIn V.types := by
  unfold typeTargetUnder
  split
  · have htype : V.types g.core.type := V.type
    exact Node.typesIn_mk.mpr ⟨by simpa using htype, by simp⟩
  · exact Node.typesIn_typeIdentifier.mpr ht

theorem confined_unsupported {concern : Concern} {message description : String} {ns : List Node}
    {s : State} (hns : ∀ n ∈ ns, n.TypesIn V.types) :
    Confined V (g.warn e concern message >>= fun _ => pure (Node.unsupported description ns)) s
      (·.TypesIn V.types) := by
  have hwarn : Confined V (g.warn e concern message) s fun _ => True :=
    .step rfl fun hsession hscope => ⟨⟨hsession, hscope⟩, trivial⟩
  exact hwarn.bind fun _ _ _ _ => .pure (Node.typesIn_mk.mpr ⟨by simp, hns⟩)

theorem types_var? (he : V.Covers e.mentions) {v : Cil.Variable} (hv : e.var? = some v) :
    V.types v.type :=
  he.var (Cil.Expr.operand_of_var? hv)

/-- Values mention types of the vocabulary only. -/
def knownTrees (g : Lowerer) (V : Vocabulary g.env) : Criterion g where
  lexicon := V.toLexicon
  Meets x s post := V.course.Keeps x s post
  Later _ _ := True
  Fits s := s.context.scope.TypesIn V
  Lowers e := V.Covers e.mentions
  Applies e := V.Covers e.mentions
  Value _ _ n := n.TypesIn V.types
  Part _ _ n := n.TypesIn V.types
  Passed _ n := n.TypesIn V.types
  Own _ v := V.types v.declaredType
  Temporary _ v := V.types v.declaredType
  Accessed p := ∀ t ∈ p.types, V.types t
  Strict := False

theorem composes_knownTrees : (g.knownTrees V).Composes where
  refl _ := trivial
  trans _ _ := trivial
  pure := .pure
  throw _ := .throw trivial
  bind := .bind
  fitting h := .fitting fun hs => h hs.2
  reading a hx := .reading a (hx _)
  withAutoCast hx := Confined.within rfl (fun _ => rfl) (hx _)

theorem lasts_knownTrees : (g.knownTrees V).Lasts where
  value_later _ hn := hn
  part_later _ hn := hn
  passed_later _ hn := hn
  own_later _ hv := hv
  temporary_later _ hv := hv

theorem makes_knownTrees : (g.knownTrees V).Makes where
  part hn := hn
  weaken hn := hn
  weakenPart hn _ := hn
  general _ _ htypes h := Node.typesIn_mk.mpr ⟨htypes, h⟩
  loose _ _ htypes h := Node.typesIn_mk.mpr ⟨htypes, h⟩
  parts _ hn := Node.typesIn_mk.mp hn
  literal _ htypes := Node.typesIn_literal.mpr htypes
  amount _ _ _ _ _ _ := Node.typesIn_integer.mpr (V.primitive _)
  own := Node.typesIn_ofVariable.mpr
  temporary hv _ := Node.typesIn_ofVariable.mpr hv
  assignTemporary hv hvalue ht :=
    Node.typesIn_binary.mpr ⟨ht, Node.typesIn_ofVariable.mpr hv, hvalue⟩
  assignment htarget hvalue _ ht := Node.typesIn_binary.mpr ⟨ht, htarget, hvalue⟩
  assignReferent haddress hvalue ht :=
    Node.typesIn_binary.mpr ⟨ht, Node.typesIn_dereference.mpr haddress, hvalue⟩
  update hn _ ht := Node.typesIn_unary.mpr ⟨ht, hn⟩
  afterPrelude := typesIn_afterPrelude
  structCopy := Node.typesIn_structCopy.mpr
  uncopied := typesIn_uncopied
  takeReference hn _ := Node.typesIn_mk.mpr ⟨by simp, List.forall_mem_singleton.mpr hn⟩
  locationOf _ hn := typesIn_located (located_locationOf ..) hn
  memberReference _ hn hf :=
    Node.typesIn_mk.mpr ⟨hf, List.forall_mem_singleton.mpr
      (typesIn_located (located_locationOf ..) hn)⟩
  staticReference hf :=
    Node.typesIn_mk.mpr ⟨hf, List.forall_mem_singleton.mpr
      (typesIn_typeTargetUnder (hf _ (by simp [Field.types])) _)⟩
  writeThrough haddress hvalue :=
    Node.typesIn_mk.mpr ⟨by simp, List.forall_mem_cons.mpr
      ⟨haddress, List.forall_mem_singleton.mpr hvalue⟩⟩
  logicalNot hn := hn.logicalNot V.boolean
  nullableUnwrap hn ht :=
    Node.typesIn_mk.mpr ⟨List.forall_mem_singleton.mpr ht, List.forall_mem_singleton.mpr hn⟩
  breakOut _ := Node.typesIn_mk.mpr ⟨by simp, by simp⟩
  continueLoop _ := Node.typesIn_mk.mpr ⟨by simp, by simp⟩

theorem lifting_knownTrees : (g.knownTrees V).Lifting fun _ m _ => m.TypesIn V.types where
  toComposes := composes_knownTrees
  toLasts := lasts_knownTrees
  toMakes := makes_knownTrees
  newTemporary ht := Confined.declaring ht
  computedType hs hn := V.computedType hs.retyping hn
  flat hn := hn
  like_later _ hm := hm
  operand h := (Node.typesIn_mk.mp h).2
  congr h hms :=
    Node.typesIn_mk.mpr ⟨h.form, ((List.forall₂_and_left _ _).mp (hms.imp fun _ _ hm => ⟨hm, hm⟩)).1⟩
  unwrapped h := h.operand List.mem_cons_self
  unwrap h hm := Node.typesIn_mk.mpr ⟨h.form, List.forall_mem_cons.mpr
    ⟨hm, fun _ ho => h.operand (List.mem_cons_of_mem _ ho)⟩⟩
  ofValue hn := hn
  toValue _ hm := hm

/-- Lowering of subexpressions that stays in a vocabulary, in a method of the vocabulary. -/
structure StaysIn (g : Lowerer) (V : Vocabulary g.env) : Prop where
  raw : ∀ {e s}, V.Covers e.mentions → Confined V (g.raw e) s (·.TypesIn V.types)
  returns : V.types g.method.returnType

theorem StaysIn.closed (hg : g.StaysIn V) : (g.knownTrees V).Closed where
  toComposes := composes_knownTrees
  toLasts := lasts_knownTrees
  toMakes := makes_knownTrees
  raw := hg.raw
  lowers he ha := he.argument ha
  applies he := he
  covers he := he
  returns := hg.returns
  resolve he hv := confined_resolve (types_var? he hv)
  retype _ ht _ _ := Confined.modifyTable fun hs => Scope.TypesIn.retype hs _ ht
  newTemporary ht := Confined.declaring ht
  variableType hs hv := hs.typeOf hv
  computedType hs hn := V.computedType hs.retyping hn
  methodDirective? hm := confined_asks (.method ..) hm.proxy
  asks hask := confined_asks hask trivial
  propertyOf? hm := Confined.askMembers (·.property? hm) fun _ hp => V.property hm hp
  earlyForm? := confined_earlyForm?
  liftIn hn ht := lifting_knownTrees.gives hn ht
  unsupported := confined_unsupported
  passed hn := hn
  plain := False.elim
  passByReference hn _ := Node.typesIn_mk.mpr ⟨by simp, List.forall_mem_singleton.mpr hn⟩
  invocation hm _ hreceiver harguments :=
    Node.typesIn_invocation.mpr ⟨hm, hreceiver, harguments⟩
  newObject hm harguments := by
    refine Node.typesIn_mk.mpr ⟨?_, harguments⟩
    exact List.forall_mem_cons.mpr ⟨hm _ (by simp [Method.types]), hm⟩
  propertyAccess hp htarget hindices :=
    Node.typesIn_propertyAccess.mpr ⟨hp, htarget, hindices⟩
  assignPassed htarget hvalue _ ht := Node.typesIn_binary.mpr ⟨ht, htarget, hvalue⟩

end Lowerer

theorem confined_lowerUpTo {env : Env} {V : Vocabulary env} {method : Method}
    (hreturns : V.types method.returnType) :
    ∀ (n : Nat) {e : Cil.Expr} {s : State}, V.Covers e.mentions →
      Confined V (lowerUpTo env method n e) s (·.TypesIn V.types)
  | 0, _, _, _ => by
    unfold lowerUpTo
    exact .throw trivial
  | n + 1, e, s, he => by
    unfold lowerUpTo
    -- The rules use what was proved for one level less.
    have hg : Lowerer.StaysIn { env, method, raw := lowerUpTo env method n } V :=
      ⟨fun he => confined_lowerUpTo hreturns n he, hreturns⟩
    exact .oneLevelDown fun _ => hg.closed.apply_ruleOf he

/-! ### Statements -/

theorem typesIn_construct {types : Ty → Prop} {form : Form} {ns : List Node}
    (hform : form.isConstruct = true) (h : ∀ n ∈ ns, n.TypesIn types) :
    Node.TypesIn types ⟨form, ns⟩ := by
  have htypes : form.types = [] := by
    cases form <;> first | rfl | cases hform
  exact Node.typesIn_mk.mpr ⟨htypes ▸ List.forall_mem_nil _, h⟩

namespace Lowerer

variable {g : Lowerer} {V : Vocabulary g.env}

theorem confined_newLoop {s : State} : Confined V newLoop s fun _ => True := by
  have hmodify : Confined V (Lower.modifyContext fun _ => s.context.newLoop.2) s fun _ => True :=
    .step rfl fun hsession hscope => ⟨⟨hsession, hscope⟩, trivial⟩
  exact .reading s.context rfl (hmodify.bind fun _ _ _ _ => .pure trivial)

/-- Statements mention types of the vocabulary only. -/
def knownStatements (g : Lowerer) (V : Vocabulary g.env) : Layout (g.knownTrees V) :=
  .ofNodes _ (fun mentions _ => V.Covers mentions) fun _ _ n => n.TypesIn V.types

theorem StaysIn.layout (hg : g.StaysIn V) : (g.knownStatements V).Closed := by
  refine Layout.OnNodes.closed ?nodes hg.closed ?descends ?provides
  case nodes =>
    exact {
      inside := Confined.withTarget
      later := fun _ hn => hn
      weaken := id
      value := id
      construct := typesIn_construct
      guardedRegion := fun hvar h => Node.typesIn_mk.mpr ⟨by simpa [knownTrees] using hvar, h⟩ }
  case descends =>
    exact {
      split := V.covers_append.mp
      member := fun h ha => V.covers_flatMap.mp h _ ha
      expression := id
      resolve := fun h => confined_resolve (V.covers_variable.mp h)
      caughtType := V.covers_cons.mp }
  case provides =>
    exact {
      newLoop := confined_newLoop
      newCaught := (Confined.declaring (f := id) V.exception).mono
        fun _ _ _ ⟨_, hw, hv⟩ => hv ▸ hw
      pinned := fun hv hn ht => Node.typesIn_binary.mpr ⟨ht, Node.typesIn_ofVariable.mpr hv,
        Node.typesIn_mk.mpr ⟨by simp [Form.types], List.forall_mem_singleton.mpr hn⟩⟩
      released := fun hv => Node.typesIn_mk.mpr
        ⟨by simp [Form.types], List.forall_mem_singleton.mpr (Node.typesIn_ofVariable.mpr hv)⟩ }

theorem StaysIn.statements (hg : g.StaysIn V) {body : List Cil.Stmt} {s : State}
    (h : V.Covers (Cil.Stmt.mentionsList body)) :
    Confined V (g.statements body) s fun ns => ∀ n ∈ ns, n.TypesIn V.types :=
  Layout.Closed.statements hg.closed hg.layout h

end Lowerer

/-! ### Methods -/

/-- A lowered method over a vocabulary. -/
structure Lowered.TypesIn {env : Env} (V : Vocabulary env) (m : Lowered) : Prop where
  body : m.body.TypesIn V.types
  scope : m.scope.TypesIn V

variable {env : Env} {V : Vocabulary env} {body : Cil.MethodBody}

theorem confined_lowerBody {s : State} (h : V.Covers body.mentions) :
    Confined V (lowerBody env body) s (Lowered.TypesIn V) := by
  unfold Cil.MethodBody.mentions at h
  rw [Lexicon.covers_append, Lexicon.covers_append, Lexicon.covers_types,
    Lexicon.covers_flatMap] at h
  obtain ⟨⟨hsignature, hvariables⟩, hstatements⟩ := h
  have hreturns : V.types body.method.returnType := hsignature _ (by simp [Method.types])
  have hg : (Lowerer.ofMethod env body.method).StaysIn V :=
    ⟨fun he => confined_lowerUpTo hreturns _ he, hreturns⟩
  have hresolve : ∀ v ∈ declaredVariables body, ∀ s,
      V.course.Keeps ((Lowerer.ofMethod env body.method).resolve v) s fun _ _ => True := by
    intro v hv s
    have htype : V.types v.type := V.covers_variable.mp (hvariables v hv)
    exact (Lowerer.confined_resolve (g := .ofMethod env body.method) htype).mono
      fun _ _ _ _ => trivial
  refine (hg.closed.each (fun _ _ _ _ h => h) hresolve).bind fun s₁ _ _ _ => ?_
  refine (hg.statements hstatements).bind fun s₂ ns _ hns => .fitting fun hs₂ => ?_
  exact .reading s₂.context rfl (.pure ⟨Node.typesIn_block.mpr hns, hs₂.2⟩)

theorem faithful_lowerOrStub {session : Session} (h : V.Covers body.mentions)
    (hsession : session.Faithful V) :
    (lowerOrStub env body session).2.Faithful V
      ∧ ∀ m, (lowerOrStub env body session).1 = .lowered m → m.TypesIn V := by
  rcases hlower : lower env body session with ⟨result, session'⟩
  obtain ⟨s', hrun, rfl⟩ := exists_run_of_lower hlower
  obtain ⟨⟨⟨hfaithful, -⟩, -⟩, hend⟩ :=
    (confined_lowerBody h).of_run ⟨hsession, Scope.typesIn_empty⟩ hrun
  rw [lowerOrStub, hlower]
  rcases hend with ⟨m, rfl, hm⟩ | ⟨e, rfl, -⟩
  · refine ⟨hfaithful, ?_⟩
    rintro _ ⟨⟩
    exact hm
  · exact ⟨hfaithful, fun m hm => by cases hm⟩

end ScriptLowering.Lowering
