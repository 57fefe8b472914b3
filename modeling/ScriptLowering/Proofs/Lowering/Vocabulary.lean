import ScriptLowering.Lowering.Monad
import ScriptLowering.Proofs.Cil.Mention
import ScriptLowering.Proofs.Lowering.Memory
import ScriptLowering.Proofs.Lowering.Scope
import ScriptLowering.Proofs.Ty.World

/-!
# Vocabularies

A `Lexicon` is a set of types and methods that lowering does not lead out of: types are closed under
the ways in which lowering makes new ones. The type of a tree over a lexicon belongs to it
(`Lexicon.computedType`). In a `Vocabulary` different members have different names.
-/

namespace ScriptLowering

open Script

/-- The core types that lowering mentions by itself. -/
def Core.basic (c : Core) : List Ty :=
  [c.object, c.string, c.void, c.decimal, c.type, c.exception, c.typeHandle, c.fieldHandle,
    c.methodHandle] ++ Primitive.all.map c.primitive

namespace Lowering

/-- Types and methods, closed under what lowering makes of them. -/
structure Lexicon (env : Env) where
  types : Ty → Prop
  /-- The methods that calls may turn out to call. -/
  methods : Method → Prop
  basic : ∀ t ∈ env.core.basic, types t
  byRef : ∀ {t}, types t → types (.byRef t)
  pointer : ∀ {t}, types t → types (.pointer t)
  array : ∀ {t} rank, types t → types (.arrayOf t rank)
  packed : ∀ {t}, types t → types (Core.packedArrayOf t)
  nullable : ∀ {t}, types t → types (env.core.nullableOf t)
  element : ∀ {t u}, types t → t.elementType? = some u → types u
  wrapped : ∀ {t u}, types t → t.nullableArgument? = some u → types u
  signature : ∀ {m}, methods m → ∀ t ∈ m.types, types t
  property : ∀ {m p}, methods m → env.directives.property? m = some p → ∀ t ∈ p.types, types t

/-- Types and methods that are told apart by their names. -/
structure Vocabulary (env : Env) extends Lexicon env where
  types_apart : ∀ {t u}, types t → types u → t.fullName = u.fullName → t = u
  methods_apart : ∀ {m m'}, methods m → methods m' → m.fullName = m'.fullName → m = m'

variable {v : Variable} {m : Method}

namespace Lexicon

variable {env : Env} (L : Lexicon env)

/-- The lexicon of everything. -/
def all (env : Env) : Lexicon env where
  types _ := True
  methods _ := True
  basic _ _ := trivial
  byRef _ := trivial
  pointer _ := trivial
  array _ _ := trivial
  packed _ := trivial
  nullable _ := trivial
  element _ _ := trivial
  wrapped _ _ := trivial
  signature _ _ _ := trivial
  property _ _ _ _ := trivial

/-! ### Members -/

theorem primitive (kind : Primitive) : L.types (env.core.primitive kind) :=
  L.basic _ (List.mem_append_right _ (List.mem_map_of_mem kind.mem_all))

theorem boolean : L.types env.core.boolean :=
  L.primitive .boolean

theorem int32 : L.types env.core.int32 :=
  L.primitive .i4

theorem nativeInt : L.types env.core.nativeInt :=
  L.primitive .i

theorem object : L.types env.core.object :=
  L.basic _ (by simp [Core.basic])

theorem string : L.types env.core.string :=
  L.basic _ (by simp [Core.basic])

theorem void : L.types env.core.void :=
  L.basic _ (by simp [Core.basic])

theorem type : L.types env.core.type :=
  L.basic _ (by simp [Core.basic])

theorem exception : L.types env.core.exception :=
  L.basic _ (by simp [Core.basic])

variable {t : Ty} {r : Retyping}

theorem ite {p : Prop} [Decidable p] {u : Ty} (ht : L.types t) (hu : L.types u) :
    L.types (if p then t else u) := by
  split
  · exact ht
  · exact hu

theorem referent (ht : L.types t) : L.types (t.elementType?.getD t) := by
  cases h : t.elementType? with
  | none => exact ht
  | some u => exact L.element ht h

theorem literalType {l : Literal} (hl : ∀ t ∈ l.types, L.types t) : L.types (l.type env.core) := by
  cases l with
  | boolean | char => exact L.primitive _
  | string => exact L.string
  | decimal | typeHandle | methodHandle | fieldHandle | typeOf =>
    exact L.basic _ (by simp [Core.basic, Literal.type])
  | integer _ t | float _ t | enumeration _ t | defaultOf t | null t | pointer _ t =>
    exact hl t List.mem_cons_self

/-! ### Types of trees -/

/-- The types that variables were given later are of the lexicon. -/
def Retypes (r : Retyping) : Prop :=
  ∀ entry ∈ r.changes, L.types entry.2

theorem variableType (hr : L.Retypes r) (hv : L.types v.declaredType) : L.types (r.typeOf v) := by
  unfold Retyping.typeOf
  cases h : r.changes.lookup v.serial with
  | none => exact hv
  | some t =>
    obtain ⟨l₁, l₂, hsplit, -⟩ := List.lookup_eq_some_iff.mp h
    exact hr (v.serial, t) (by rw [hsplit]; simp)

theorem knownType {form : Form} (hform : ∀ t ∈ form.types, L.types t) (hr : L.Retypes r)
    (hrule : form.typeRule env.core r = .known t) : L.types t := by
  cases form <;> simp only [Form.typeRule, Form.TypeRule.known.injEq, reduceCtorEq] at hrule <;>
    subst hrule
  case literal l => exact L.literalType hform
  case var v => exact L.variableType hr (hform _ (by simp))
  case methodIdentifier => exact L.nativeInt
  case typeIdentifier => exact L.type
  case exactMultiply => exact L.primitive _
  case pointerDelta => exact L.nativeInt
  case pointerOffset => exact L.nativeInt
  case typeTest => exact L.boolean
  case objectLiteral => exact L.object
  case memberReference f => exact L.byRef (hform _ (by simp [Field.types]))
  case elementReference => exact L.byRef (hform _ (by simp))
  case newBoxedVariable => exact L.byRef (hform _ (by simp))
  case arrayLiteral => exact L.array 1 (hform _ (by simp))
  case newArray => exact L.array _ (hform _ (by simp))
  -- What is left has no result, or mentions its type.
  all_goals
    first
    | exact L.void
    | (refine hform _ ?_; simp [Field.types, Method.types, Property.types])

theorem typeAt :
    ∀ {ns : List Node} {index : Nat}, (∀ n ∈ ns, L.types (n.computedType env.core r)) →
      L.types (Node.typeAt env.core r ns index)
  | [], _, _ => by simpa [Node.typeAt] using L.void
  | n :: _, 0, h => by
    rw [Node.typeAt]
    exact h n List.mem_cons_self
  | _ :: ns, index + 1, h => by
    rw [Node.typeAt]
    exact typeAt fun n hn => h n (List.mem_cons_of_mem _ hn)

theorem lastType :
    ∀ {ns : List Node}, (∀ n ∈ ns, L.types (n.computedType env.core r)) →
      L.types (Node.lastType env.core r ns)
  | [], _ => by simpa [Node.lastType] using L.void
  | [n], h => by
    rw [Node.lastType]
    exact h n List.mem_cons_self
  | _ :: n :: ns, h => by
    rw [Node.lastType]
    exact lastType fun m hm => h m (List.mem_cons_of_mem _ hm)

theorem computedType (hr : L.Retypes r) :
    ∀ {n : Node}, n.TypesIn L.types → L.types (n.computedType env.core r) := by
  intro n
  induction n using Node.induction with
  | step form operands ih =>
    intro hn
    have hoperands : ∀ o ∈ operands, L.types (o.computedType env.core r) :=
      fun o ho => ih o ho (hn.operand ho)
    rw [Node.computedType]
    cases hrule : form.typeRule env.core r with
    | known t => exact L.knownType hn.form hr hrule
    | operand index => exact L.typeAt hoperands
    | referenceToFirst => exact L.byRef (L.typeAt hoperands)
    | referentOfFirst => exact L.referent (L.typeAt hoperands)
    | pointerToReferent => exact L.pointer (L.referent (L.typeAt hoperands))
    | last => exact L.lastType hoperands

/-! ### Method bodies -/

/-- Whether something that a method body mentions is of the lexicon. A call may be redirected to
another method. -/
def Knows : Cil.Mention → Prop
  | .type t => L.types t
  | .method m =>
    L.methods m ∧ ∀ p, (env.directives.method? m).bind (·.proxy?) = some p → L.methods p

/-- A lexicon that covers what is mentioned. -/
def Covers (mentions : List Cil.Mention) : Prop :=
  ∀ x ∈ mentions, L.Knows x

@[simp]
theorem covers_nil : L.Covers [] := by
  simp [Covers]

@[simp]
theorem covers_cons {x : Cil.Mention} {rest : List Cil.Mention} :
    L.Covers (x :: rest) ↔ L.Knows x ∧ L.Covers rest := by
  simp [Covers]

@[simp]
theorem covers_append {xs ys : List Cil.Mention} :
    L.Covers (xs ++ ys) ↔ L.Covers xs ∧ L.Covers ys := by
  simp [Covers, or_imp, forall_and]

@[simp]
theorem covers_types {ts : List Ty} : L.Covers (ts.map .type) ↔ ∀ t ∈ ts, L.types t := by
  simp [Covers, Knows]

theorem covers_flatMap {α : Type} {f : α → List Cil.Mention} {as : List α} :
    L.Covers (as.flatMap f) ↔ ∀ a ∈ as, L.Covers (f a) := by
  simp only [Covers, List.mem_flatMap]
  constructor
  · exact fun h a ha x hx => h x ⟨a, ha, hx⟩
  · rintro h x ⟨a, ha, hx⟩
    exact h a ha x hx

@[simp]
theorem covers_variable {v : Cil.Variable} : L.Covers v.mentions ↔ L.types v.type := by
  simp [Cil.Variable.mentions, Knows]

variable {L} {e : Cil.Expr}

section

variable (h : L.Covers e.mentions)
include h

theorem Covers.parts :
    L.Covers e.operand.mentions ∧ (∀ t ∈ e.expected?, L.types t) ∧ (∀ t ∈ e.inferred?, L.types t)
      ∧ ∀ a ∈ e.arguments, L.Covers a.mentions := by
  obtain ⟨code, operand, arguments, expected?, inferred?, offset?⟩ := e
  rw [Cil.Expr.mentions, covers_append, covers_append, covers_types] at h
  obtain ⟨⟨hoperand, htypes⟩, harguments⟩ := h
  refine ⟨hoperand, fun t ht => htypes t ?_, fun t ht => htypes t ?_, fun a ha x hx => ?_⟩
  · exact List.mem_append_left _ (Option.mem_toList.mpr ht)
  · exact List.mem_append_right _ (Option.mem_toList.mpr ht)
  · exact harguments x (Cil.Expr.mem_mentionsList ha hx)

theorem Covers.argument {a : Cil.Expr} (ha : a ∈ e.arguments) : L.Covers a.mentions :=
  h.parts.2.2.2 a ha

theorem Covers.expected (ht : e.expected? = some t) : L.types t :=
  h.parts.2.1 t ht

theorem Covers.inferred (ht : e.inferred? = some t) : L.types t :=
  h.parts.2.2.1 t ht

theorem Covers.var {v : Cil.Variable} (hv : e.operand = .var v) : L.types v.type := by
  have hoperand := h.parts.1
  rw [hv, Cil.Operand.mentions, covers_variable] at hoperand
  exact hoperand

theorem Covers.field {f : Field} (hf : e.operand = .field f) : ∀ t ∈ f.types, L.types t := by
  have hoperand := h.parts.1
  rw [hf, Cil.Operand.mentions, covers_types] at hoperand
  exact hoperand

theorem Covers.method (hm : e.operand = .method m) : L.Knows (.method m) := by
  have hoperand := h.parts.1
  rw [hm, Cil.Operand.mentions, covers_cons] at hoperand
  exact hoperand.1

theorem Covers.type (ht : e.operand = .type t) : L.types t := by
  have hoperand := h.parts.1
  rw [ht, Cil.Operand.mentions, covers_cons] at hoperand
  exact hoperand.1

end

theorem covers_all {mentions : List Cil.Mention} : (all env).Covers mentions := by
  intro x _
  cases x with
  | type => trivial
  | method => exact ⟨trivial, fun _ _ => trivial⟩

theorem Knows.proxy (hm : L.Knows (.method m)) :
    L.methods (((env.directives.method? m).bind (·.proxy?)).getD m) := by
  cases hproxy : (env.directives.method? m).bind (·.proxy?) with
  | none => exact hm.1
  | some p => exact hm.2 p hproxy

end Lexicon

/-! ### Variables -/

namespace Scope

variable {env : Env} {V : Vocabulary env} {s : Scope}

/-- Variables whose types, as declared and as given later, are of a vocabulary. -/
structure TypesIn (V : Vocabulary env) (s : Scope) : Prop where
  declared : ∀ v ∈ s.allVariables, V.types v.declaredType
  retyping : V.Retypes s.retyping

theorem typesIn_empty : Scope.empty.TypesIn V where
  declared := by simp [Scope.empty, allVariables]
  retyping := by simp [Scope.empty, Retyping.empty, Lexicon.Retypes]

variable (h : s.TypesIn V)
include h

theorem TypesIn.typeOf (hv : V.types v.declaredType) : V.types (s.typeOf v) :=
  V.variableType h.retyping hv

theorem TypesIn.add (name : String) (kind : VariableKind) {type : Ty} (ht : V.types type) :
    (s.add name kind type).2.TypesIn V where
  declared := by
    intro v hv
    rcases List.mem_cons.mp ((allVariables_add s name kind type).mem_iff.mp hv) with rfl | hold
    · exact ht
    · exact h.declared v hold
  retyping := by
    have hsame : (s.add name kind type).2.retyping = s.retyping := by
      unfold Scope.add insert
      cases kind <;> rfl
    rw [hsame]
    exact h.retyping

theorem TypesIn.addTemporary (number : Nat) {type : Ty} (ht : V.types type) :
    V.types (s.addTemporary number type).1.declaredType
      ∧ (s.addTemporary number type).2.TypesIn V := by
  have hadd := h.add (temporaryName number) .temporary ht
  exact ⟨ht, hadd.declared, hadd.retyping⟩

omit h in
theorem TypesIn.declare {t t' : Table} (h : t.TypesIn V) {types : Hierarchy} {name : String}
    {kind : VariableKind} {type : Ty} (ht : V.types type)
    (hok : t.declare types name kind type = .ok (v, t')) :
    V.types v.declaredType ∧ t'.TypesIn V := by
  rcases Table.declare_cases hok with ⟨hfind, rfl⟩ | ⟨-, rfl, rfl⟩
  · exact ⟨h.declared v (t'.listed hfind).1, h⟩
  · exact ⟨ht, h.add name kind ht⟩

theorem TypesIn.retype (v : Variable) {t : Ty} (ht : V.types t) : (s.retype v t).TypesIn V where
  declared := h.declared
  retyping := List.forall_mem_cons.mpr ⟨ht, h.retyping⟩

end Scope

/-! ### Sessions -/

section

variable {env : Env}

/-- Every remembered answer about assignability is about types of a vocabulary, and the one that would
be computed for them. -/
def Vocabulary.Trusts (V : Vocabulary env) (memo : AssignableMemo) : Prop :=
  ∀ key answer, memo.answers.lookup key = some answer →
    ∃ t u, V.types t ∧ V.types u ∧ key = (t.fullName, u.fullName)
      ∧ answer = env.types.isAssignable t u

theorem Vocabulary.trusts_ask {V : Vocabulary env} {memo : AssignableMemo} (h : V.Trusts memo)
    {t u : Ty} (ht : V.types t) (hu : V.types u) : V.Trusts (memo.ask env.types t u).2 := by
  simp only [AssignableMemo.ask]
  cases memo.answers.lookup (t.fullName, u.fullName) with
  | some answer => exact h
  | none =>
    intro key answer hanswer
    rw [List.lookup_cons] at hanswer
    split at hanswer
    · next heq => exact ⟨t, u, ht, hu, beq_iff_eq.mp heq, (Option.some.inj hanswer).symm⟩
    · exact h key answer hanswer

namespace Memory

/-- What is remembered is about members and types of a vocabulary, and what would be answered. -/
structure Faithful (V : Vocabulary env) (m : Memory) : Prop where
  directives : m.members.Right env.directives
  properties : ∀ {name answer}, m.members.properties.lookup name = some answer →
    ∃ called, V.methods called ∧ name = called.fullName ∧ answer = env.directives.property? called
  assignable : V.Trusts m.assignable

variable {V : Vocabulary env} {m m' : Memory}

theorem faithful_empty : Memory.empty.Faithful V where
  directives := ⟨nofun, nofun, nofun⟩
  properties := nofun
  assignable _ := nofun

namespace Faithful

/-- A memory is faithful if a later one is. -/
theorem of_extends (hm' : m'.Faithful V) (h : m.Extends m') : m.Faithful V where
  directives :=
    ⟨fun hm => hm'.directives.methods (h.methods hm), fun hf => hm'.directives.fields (h.fields hf),
      fun ht => hm'.directives.types (h.types ht)⟩
  properties hp := hm'.properties (h.properties hp)
  assignable key answer ha := hm'.assignable key answer (h.assignable key answer ha)

theorem ask_eq {q : Query} (h : (m.ask env.types env.directives q).2.Faithful V)
    (h' : (m'.ask env.types env.directives q).2.Faithful V) :
    (m.ask env.types env.directives q).1 = (m'.ask env.types env.directives q).1 := by
  -- The answer is remembered, together with what it is about.
  cases q with
  | method =>
    exact (h.directives.methods (lookup_remember ..)).trans
      (h'.directives.methods (lookup_remember ..)).symm
  | field =>
    exact (h.directives.fields (lookup_remember ..)).trans
      (h'.directives.fields (lookup_remember ..)).symm
  | type =>
    exact (h.directives.types (lookup_remember ..)).trans
      (h'.directives.types (lookup_remember ..)).symm
  | property =>
    obtain ⟨called, hcalled, hname, hanswer⟩ := h.properties (lookup_remember ..)
    obtain ⟨called', hcalled', hname', hanswer'⟩ := h'.properties (lookup_remember ..)
    cases V.methods_apart hcalled hcalled' (hname.symm.trans hname')
    exact hanswer.trans hanswer'.symm
  | assignable =>
    obtain ⟨t, u, ht, hu, hkey, hanswer⟩ := h.assignable _ _ (AssignableMemo.ask_spec _).2
    obtain ⟨t', u', ht', hu', hkey', hanswer'⟩ := h'.assignable _ _ (AssignableMemo.ask_spec _).2
    obtain ⟨hnames, hnames'⟩ := Prod.mk.inj (hkey.symm.trans hkey')
    cases V.types_apart ht ht' hnames
    cases V.types_apart hu hu' hnames'
    exact hanswer.trans hanswer'.symm

variable (hm : m.Faithful V)
include hm

theorem asks {α : Type} {ask : MemberMemo → α × MemberMemo} {answer : α}
    (hask : MemberMemo.Asks env.directives ask answer) :
    (m.askMembers ask).1 = answer ∧ (m.askMembers ask).2.Faithful V := by
  obtain ⟨hanswer, hright⟩ := hask.right hm.directives
  refine ⟨hanswer, hright, fun {name given} hp => ?_, hm.assignable⟩
  change (ask m.members).2.properties.lookup name = some given at hp
  rw [hask.properties] at hp
  exact hm.properties hp

theorem property? {called : Method} (hcalled : V.methods called) :
    (m.askMembers (·.property? env.directives called)).1 = env.directives.property? called
      ∧ (m.askMembers (·.property? env.directives called)).2.Faithful V := by
  obtain ⟨⟨called', hcalled', hname, hanswer⟩, hproperties⟩ := remember_keeps
    hm.properties ⟨called, hcalled, rfl, rfl⟩
  cases V.methods_apart hcalled hcalled' hname
  have hright := hm.directives
  exact ⟨hanswer, ⟨hright.methods, hright.fields, hright.types⟩, hproperties, hm.assignable⟩

end Faithful

end Memory

end

end Lowering

end ScriptLowering
