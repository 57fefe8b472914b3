import ScriptLowering.Lowering.Memory

/-!
# What is remembered stays

A query leaves all earlier answers in the memory (`Memory.ask_later`), and its own: in every later
memory it is answered the same and changes nothing (`Memory.ask_again`). What is remembered of
directives is right (`MemberMemo.Right`) when it is what the directives say; questions about
directives keep it so (`MemberMemo.Asks.right`).
-/

namespace ScriptLowering

section

variable {α : Type} {memo : List (String × α)} {name key : String} {answer given : α}

theorem remember_of_lookup (answer : α) (h : memo.lookup name = some given) :
    remember memo name answer = (given, memo) := by
  rw [remember, h]

theorem remember_keeps {P : String → α → Prop}
    (h : ∀ {key given}, memo.lookup key = some given → P key given) (hanswer : P name answer) :
    P name (remember memo name answer).1
      ∧ ∀ {key given}, (remember memo name answer).2.lookup key = some given → P key given := by
  cases hheld : memo.lookup name with
  | some held =>
    rw [remember_of_lookup _ hheld]
    exact ⟨h hheld, h⟩
  | none =>
    rw [remember, hheld]
    refine ⟨hanswer, fun {key given} hkey => ?_⟩
    rw [List.lookup_cons] at hkey
    split at hkey
    · next hname =>
      cases hkey
      rw [beq_iff_eq.mp hname]
      exact hanswer
    · exact h hkey

theorem lookup_remember (memo : List (String × α)) (name : String) (answer : α) :
    (remember memo name answer).2.lookup name = some (remember memo name answer).1 := by
  cases hheld : memo.lookup name with
  | some held => rw [remember_of_lookup _ hheld, hheld]
  | none => rw [remember, hheld, List.lookup_cons_self]

theorem lookup_remember_of_lookup (h : memo.lookup key = some given) :
    (remember memo name answer).2.lookup key = some given := by
  cases hheld : memo.lookup name with
  | some held =>
    rw [remember_of_lookup _ hheld]
    exact h
  | none =>
    -- The new answer stands under a name that had none.
    have hne : (key == name) = false := by
      rw [beq_eq_false_iff_ne]
      rintro rfl
      rw [hheld] at h
      cases h
    rw [remember, hheld, List.lookup_cons, hne]
    exact h

end

namespace AssignableMemo

/-- A memory that keeps the answers of another one. -/
def Before (m m' : AssignableMemo) : Prop :=
  ∀ key answer, m.answers.lookup key = some answer → m'.answers.lookup key = some answer

theorem Before.refl (m : AssignableMemo) : m.Before m :=
  fun _ _ h => h

theorem Before.trans {m m' m'' : AssignableMemo} (h : m.Before m') (h' : m'.Before m'') :
    m.Before m'' :=
  fun key answer hkey => h' key answer (h key answer hkey)

variable {h : Hierarchy} {target source : Ty}

theorem ask_spec (m : AssignableMemo) :
    m.Before (m.ask h target source).2
      ∧ (m.ask h target source).2.answers.lookup (target.fullName, source.fullName)
        = some (m.ask h target source).1 := by
  cases hheld : m.answers.lookup (target.fullName, source.fullName) with
  | some answer =>
    simp only [ask, hheld, and_true]
    exact Before.refl m
  | none =>
    simp only [ask, hheld, List.lookup_cons_self, and_true]
    intro key answer hkey
    -- The new answer stands under a key that had none.
    have hne : (key == (target.fullName, source.fullName)) = false := by
      rw [beq_eq_false_iff_ne]
      rintro rfl
      rw [hheld] at hkey
      cases hkey
    simp only [List.lookup_cons, hne]
    exact hkey

theorem ask_later {m m' : AssignableMemo} (hlater : (m.ask h target source).2.Before m') :
    m'.ask h target source = ((m.ask h target source).1, m') := by
  have held := hlater _ _ (ask_spec m).2
  simp only [ask, held]

end AssignableMemo

namespace Lowering.Memory

/-- All answers of one memory are answers of another one. -/
structure Extends (m m' : Memory) : Prop where
  methods : ∀ {name answer}, m.members.methods.lookup name = some answer →
    m'.members.methods.lookup name = some answer
  fields : ∀ {name answer}, m.members.fields.lookup name = some answer →
    m'.members.fields.lookup name = some answer
  types : ∀ {name answer}, m.members.types.lookup name = some answer →
    m'.members.types.lookup name = some answer
  properties : ∀ {name answer}, m.members.properties.lookup name = some answer →
    m'.members.properties.lookup name = some answer
  assignable : m.assignable.Before m'.assignable

namespace Extends

/-- A memory has its own answers. -/
theorem refl (m : Memory) : m.Extends m :=
  ⟨id, id, id, id, .refl _⟩

/-- Answers that stay twice stay. -/
theorem trans {m₁ m₂ m₃ : Memory} (h : m₁.Extends m₂) (h' : m₂.Extends m₃) : m₁.Extends m₃ where
  methods hm := h'.methods (h.methods hm)
  fields hf := h'.fields (h.fields hf)
  types ht := h'.types (h.types ht)
  properties hp := h'.properties (h.properties hp)
  assignable := h.assignable.trans h'.assignable

end Extends

variable {h : Hierarchy} {d : Directives}

theorem ask_later (m : Memory) (q : Query) : m.Extends (m.ask h d q).2 := by
  cases q with
  | method => exact ⟨lookup_remember_of_lookup, id, id, id, .refl _⟩
  | field => exact ⟨id, lookup_remember_of_lookup, id, id, .refl _⟩
  | type => exact ⟨id, id, lookup_remember_of_lookup, id, .refl _⟩
  | property => exact ⟨id, id, id, lookup_remember_of_lookup, .refl _⟩
  | assignable => exact ⟨id, id, id, id, (AssignableMemo.ask_spec _).1⟩

theorem ask_again {m m' : Memory} {q : Query} (hlater : (m.ask h d q).2.Extends m') :
    m'.ask h d q = ((m.ask h d q).1, m') := by
  cases q with
  | method called =>
    have held := remember_of_lookup (d.method? called) (hlater.methods (lookup_remember ..))
    simp only [ask, askMembers, MemberMemo.method?, held]
  | field f =>
    have held := remember_of_lookup (d.field? f) (hlater.fields (lookup_remember ..))
    simp only [ask, askMembers, MemberMemo.field?, held]
  | type t =>
    have held := remember_of_lookup (d.type? t) (hlater.types (lookup_remember ..))
    simp only [ask, askMembers, MemberMemo.type?, held]
  | property called =>
    have held := remember_of_lookup (d.property? called) (hlater.properties (lookup_remember ..))
    simp only [ask, askMembers, MemberMemo.property?, held]
  | assignable target source =>
    simp only [ask, AssignableMemo.ask_later hlater.assignable]

end Lowering.Memory

/-! ### Directives -/

namespace MemberMemo

/-- What is remembered of directives is what they say. -/
structure Right (d : Directives) (memo : MemberMemo) : Prop where
  methods : ∀ {name answer}, memo.methods.lookup name = some answer →
    answer = lookupLast name d.methods
  fields : ∀ {name answer}, memo.fields.lookup name = some answer → answer = lookupLast name d.fields
  types : ∀ {name answer}, memo.types.lookup name = some answer → answer = lookupLast name d.types

/-- The questions about directives, each with the answer that they give. -/
inductive Asks (d : Directives) : {α : Type} → (MemberMemo → α × MemberMemo) → α → Prop where
  | method (m : Method) : Asks d (·.method? d m) (d.method? m)
  | field (f : Field) : Asks d (·.field? d f) (d.field? f)
  | type (t : Ty) : Asks d (·.type? d t) (d.type? t)
  /-- Whether calls are dropped is asked of the method, and then of its type. -/
  | ignores (m : Method) : Asks d (·.ignores d m)
    ((d.method? m).any (·.isIgnored) || (d.type? m.declaringType).any (·.isIgnored))

variable {d : Directives}

theorem Right.method? {memo : MemberMemo} (h : memo.Right d) (m : Method) :
    (memo.method? d m).1 = d.method? m ∧ (memo.method? d m).2.Right d := by
  obtain ⟨hanswer, hmethods⟩ := remember_keeps h.methods
    (rfl : d.method? m = lookupLast m.fullName d.methods)
  exact ⟨hanswer, hmethods, h.fields, h.types⟩

theorem Right.field? {memo : MemberMemo} (h : memo.Right d) (f : Field) :
    (memo.field? d f).1 = d.field? f ∧ (memo.field? d f).2.Right d := by
  obtain ⟨hanswer, hfields⟩ := remember_keeps h.fields
    (rfl : d.field? f = lookupLast f.fullName d.fields)
  exact ⟨hanswer, h.methods, hfields, h.types⟩

theorem Right.type? {memo : MemberMemo} (h : memo.Right d) (t : Ty) :
    (memo.type? d t).1 = d.type? t ∧ (memo.type? d t).2.Right d := by
  obtain ⟨hanswer, htypes⟩ := remember_keeps h.types
    (rfl : d.type? t = lookupLast t.fullName d.types)
  exact ⟨hanswer, h.methods, h.fields, htypes⟩

namespace Asks

variable {α : Type} {ask : MemberMemo → α × MemberMemo} {answer : α} (hask : Asks d ask answer)
include hask

theorem right {memo : MemberMemo} (h : memo.Right d) :
    (ask memo).1 = answer ∧ (ask memo).2.Right d := by
  cases hask with
  | method m => exact h.method? m
  | field f => exact h.field? f
  | type t => exact h.type? t
  | ignores m =>
    obtain ⟨hmethod, h⟩ := h.method? m
    obtain ⟨htype, h'⟩ := h.type? m.declaringType
    simp only [MemberMemo.ignores]
    split
    · next hignored =>
      rw [hmethod] at hignored
      rw [hignored]
      exact ⟨rfl, h⟩
    · next hignored =>
      rw [hmethod] at hignored
      rw [Bool.eq_false_iff.mpr hignored, ← htype]
      exact ⟨rfl, h'⟩

theorem properties (memo : MemberMemo) : (ask memo).2.properties = memo.properties := by
  cases hask with
  | method | field | type => rfl
  | ignores m =>
    simp only [MemberMemo.ignores]
    split <;> rfl

end Asks

end MemberMemo

end ScriptLowering
