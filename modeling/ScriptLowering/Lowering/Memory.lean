import ScriptLowering.Member.Directive
import ScriptLowering.Ty.Assignability

/-!
# What is remembered in a run

A `Memory` holds the answers that the methods of a run share. It is asked with a `Query`; what is not
remembered is computed, and remembered then.
-/

namespace ScriptLowering.Lowering

/-- What a memory can be asked. -/
inductive Query where
  /-- The directive for a method. -/
  | method (m : Method)
  /-- The directive for a field. -/
  | field (f : Field)
  /-- The directive for a type. -/
  | type (t : Ty)
  /-- The property that a method is an accessor of. -/
  | property (m : Method)
  /-- Whether a type can be assigned to another one. -/
  | assignable (target source : Ty)

/-- What a query is answered with. -/
abbrev Query.Answer : Query → Type
  | method _ => Option MethodDirective
  | field _ => Option FieldDirective
  | type _ => Option TypeDirective
  | property _ => Option Property
  | assignable _ _ => Bool

/-- What is remembered in a run. -/
structure Memory where
  members : MemberMemo
  assignable : AssignableMemo

namespace Memory

/-- Nothing yet. -/
def empty : Memory where
  members := .empty
  assignable := .empty

/-- Answers about a member or a type, from what is remembered of them. -/
def askMembers {α : Type} (m : Memory) (ask : MemberMemo → α × MemberMemo) : α × Memory :=
  let (answer, members) := ask m.members
  (answer, { m with members })

/-- Answers a query. -/
def ask (m : Memory) (h : Hierarchy) (d : Directives) : (q : Query) → q.Answer × Memory
  | .method called => m.askMembers (·.method? d called)
  | .field f => m.askMembers (·.field? d f)
  | .type t => m.askMembers (·.type? d t)
  | .property called => m.askMembers (·.property? d called)
  | .assignable target source =>
    let (answer, assignable) := m.assignable.ask h target source
    (answer, { m with assignable })

end Memory

end ScriptLowering.Lowering
