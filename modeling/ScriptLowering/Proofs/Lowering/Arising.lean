import ScriptLowering.Proofs.Lowering.Vocabulary
import ScriptLowering.Proofs.Ty.BuiltName

/-!
# What arises in a batch

The types that can come up while the methods of a batch are lowered: those that the bodies mention,
those of the members that they use, the basic ones, and all that lowering makes of them. They are the
least lexicon that covers the batch (`arising`).
-/

namespace ScriptLowering

open Lowering

variable (env : Env) (bodies : List Cil.MethodBody)

/-- The methods that instructions of a batch name, and those that calls are redirected to. -/
inductive Called : Method → Prop where
  | named {b : Cil.MethodBody} {m : Method} (hb : b ∈ bodies) (hm : .method m ∈ b.mentions) :
    Called m
  | redirected {b : Cil.MethodBody} {m p : Method} (hb : b ∈ bodies) (hm : .method m ∈ b.mentions)
    (hp : (env.directives.method? m).bind (·.proxy?) = some p) : Called p

/-- The types of a batch and of the members it uses, the basic types, and what is built of them and
what they are built of. -/
inductive Arises : Ty → Prop where
  | mentioned {b : Cil.MethodBody} {t : Ty} (hb : b ∈ bodies) (ht : .type t ∈ b.mentions) : Arises t
  | signature {m : Method} {t : Ty} (hm : Called env bodies m) (ht : t ∈ m.types) : Arises t
  | property {m : Method} {p : Property} {t : Ty} (hm : Called env bodies m)
    (hp : env.directives.property? m = some p) (ht : t ∈ p.types) : Arises t
  | basic {t : Ty} (ht : t ∈ env.core.basic) : Arises t
  | byRef {t : Ty} (ht : Arises t) : Arises (.byRef t)
  | pointer {t : Ty} (ht : Arises t) : Arises (.pointer t)
  | array {t : Ty} (rank : Nat) (ht : Arises t) : Arises (.arrayOf t rank)
  | packed {t : Ty} (ht : Arises t) : Arises (Core.packedArrayOf t)
  | nullable {t : Ty} (ht : Arises t) : Arises (env.core.nullableOf t)
  | element {t u : Ty} (ht : Arises t) (hu : t.elementType? = some u) : Arises u
  | wrapped {t u : Ty} (ht : Arises t) (hu : t.nullableArgument? = some u) : Arises u

/-- What arises in a batch is a lexicon. -/
def arising : Lexicon env where
  types := Arises env bodies
  methods := Called env bodies
  basic := fun _ => .basic
  byRef := .byRef
  pointer := .pointer
  array := .array
  packed := .packed
  nullable := .nullable
  element := .element
  wrapped := .wrapped
  signature := fun hm _ => .signature hm
  property := fun hm hp _ => .property hm hp

variable {env bodies}

theorem arising_covers {b : Cil.MethodBody} (hb : b ∈ bodies) :
    (arising env bodies).Covers b.mentions := by
  intro x hx
  cases x with
  | type t => exact Arises.mentioned hb hx
  | method m => exact ⟨.named hb hx, fun p hp => .redirected hb hx hp⟩

theorem Arises.built {base : Ty → Prop} (hbasic : ∀ t ∈ env.core.basic, base t)
    (hmentioned : ∀ b ∈ bodies, ∀ t, .type t ∈ b.mentions → Ty.Built env.core base t)
    (hcalled : ∀ m, Called env bodies m → (∀ t ∈ m.types, Ty.Built env.core base t)
      ∧ ∀ p, env.directives.property? m = some p → ∀ t ∈ p.types, Ty.Built env.core base t)
    (helement : ∀ t, base t → t.elementType? = none)
    (hgeneric : ∀ t, base t → t.genericArguments = []) {t : Ty} (h : Arises env bodies t) :
    Ty.Built env.core base t := by
  induction h with
  | mentioned hb ht => exact hmentioned _ hb _ ht
  | signature hm ht => exact (hcalled _ hm).1 _ ht
  | property hm hp ht => exact (hcalled _ hm).2 _ hp _ ht
  | basic ht => exact .base (hbasic _ ht)
  | byRef _ ih => exact .build .byRef ih
  | pointer _ ih => exact .build .pointer ih
  | array rank _ ih => exact ih.arrayOf rank
  | packed _ ih => exact .build .packed ih
  | nullable _ ih => exact .build .nullable ih
  | element _ hu ih => exact ih.elementType? helement hu
  | wrapped _ hu ih => exact ih.nullableArgument? hgeneric hu

end ScriptLowering
