import ScriptLowering.Ty.Basic

/-!
# Agreement of types

Definitions agree by name, module and enclosing type; wrappers, instances and function pointers part
by part; generic parameters by position, name and declaring method, when their owners agree or are
related in another way that is given. Loose agreement ignores modifiers and pins; strict agreement
compares them.
-/

namespace ScriptLowering

namespace Ty

/-- Whether two expanded parameters agree in all but their owners. -/
def Parameter.sameSlot (a b : Parameter) : Bool :=
  a.position == b.position && a.method? == b.method?
    && (match a.name?, b.name? with
        | some x, some y => x == y
        | _, _ => true)

mutual

/-- Structural agreement, where owners of generic parameters may also be `related`. -/
def agrees (related : Ty → Ty → Bool) : Ty → Bool → Ty → Bool
  | named a, strict, b =>
    match if strict then b else b.strip with
    | named d => a.sameName d
    | _ => false
  | nested outer a, strict, b =>
    match if strict then b else b.strip with
    | nested outer' d => a.sameName d && agrees related outer false outer'
    | _ => false
  | array element rank, strict, b =>
    match if strict then b else b.strip with
    | array element' rank' => rank == rank' && agrees related element strict element'
    | _ => false
  | byRef element, strict, b =>
    match if strict then b else b.strip with
    | byRef element' => agrees related element strict element'
    | _ => false
  | pointer element, strict, b =>
    match if strict then b else b.strip with
    | pointer element' => agrees related element strict element'
    | _ => false
  | modified element modifier required, strict, b =>
    if strict then
      match b with
      | modified element' modifier' required' =>
        required == required' && agrees related modifier strict modifier'
          && agrees related element strict element'
      | _ => false
    else
      agrees related element strict b
  | pinned element, strict, b =>
    if strict then
      match b with
      | pinned element' => agrees related element strict element'
      | _ => false
    else
      agrees related element strict b
  | inst generic arguments, strict, b =>
    match if strict then b else b.strip with
    | inst generic' arguments' =>
      agrees related generic strict generic' && agreesList related arguments strict arguments'
    | _ => false
  | typeParam owner position name?, strict, b =>
    match (typeParam owner position name?).expandedParameter?,
        (if strict then b else b.strip).expandedParameter? with
    | some p, some q =>
      p.sameSlot q && (agrees related owner false q.owner || related owner q.owner)
    | _, _ => false
  | methodParam owner method declared position name?, strict, b =>
    match (methodParam owner method declared position name?).expandedParameter?,
        (if strict then b else b.strip).expandedParameter? with
    | some p, some q =>
      p.sameSlot q && (agrees related owner false q.owner || related owner q.owner)
    | _, _ => false
  | functionPointer result parameters, strict, b =>
    match if strict then b else b.strip with
    | functionPointer result' parameters' =>
      agrees related result strict result' && agreesList related parameters strict parameters'
    | _ => false

/-- Agreement of two lists, place by place. -/
def agreesList (related : Ty → Ty → Bool) : List Ty → Bool → List Ty → Bool
  | [], _, [] => true
  | a :: as, strict, b :: bs => agrees related a strict b && agreesList related as strict bs
  | _, _, _ => false

end

/-! ### Comparing shared types

Types share parts: the owner of a generic parameter is the type that declares it, and a type may
name many parameters of one owner. `agreement` computes `agrees`, and does not look into a part that
both sides share, as a part agrees with itself.
-/

/-- What is left after modifiers and pins has none on its outside. -/
theorem strip_strip : ∀ t : Ty, t.strip.strip = t.strip
  | modified element _ _ | pinned element => by simp only [strip]; exact strip_strip element
  | named _ | nested _ _ | array _ _ | byRef _ | pointer _ | inst _ _ | typeParam _ _ _
  | methodParam _ _ _ _ _ | functionPointer _ _ => by simp only [strip]

/-- Loose agreement does not see modifiers and pins on the outside. -/
theorem agrees_strip (related : Ty → Ty → Bool) :
    ∀ a b : Ty, agrees related a false b.strip = agrees related a false b
  | modified element _ _, b | pinned element, b => by
    simp only [agrees, Bool.false_eq_true, if_false]
    exact agrees_strip related element b
  | named _, b | nested _ _, b | array _ _, b | byRef _, b | pointer _, b | inst _ _, b
  | typeParam _ _ _, b | methodParam _ _ _ _ _, b | functionPointer _ _, b => by
    simp only [agrees, Bool.false_eq_true, if_false, strip_strip]

/-- A parameter has the slot of itself. -/
theorem Parameter.sameSlot_self (p : Parameter) : p.sameSlot p = true := by
  unfold Parameter.sameSlot
  cases p.name? <;> simp

mutual

/-- A type agrees with itself. -/
theorem agrees_self (related : Ty → Ty → Bool) :
    ∀ (t : Ty) (strict : Bool), agrees related t strict t = true
  | named d, strict => by
    cases strict <;> simp [agrees, strip, Definition.sameName, ModuleScope.sameModule]
  | nested outer d, strict => by
    cases strict <;>
      simp [agrees, strip, Definition.sameName, ModuleScope.sameModule,
        agrees_self related outer false]
  | array element _, strict | byRef element, strict | pointer element, strict => by
    cases strict <;> simp [agrees, strip, agrees_self related element]
  | modified element modifier required, true => by
    simp [agrees, agrees_self related element, agrees_self related modifier]
  | pinned element, true => by
    simp [agrees, agrees_self related element]
  | modified element _ _, false | pinned element, false => by
    simp only [agrees, Bool.false_eq_true, if_false]
    rw [← agrees_strip, strip, agrees_strip]
    exact agrees_self related element false
  | inst head rest, strict | functionPointer head rest, strict => by
    cases strict <;> simp [agrees, strip, agrees_self related head, agreesList_self related rest]
  | typeParam owner _ _, strict | methodParam owner _ _ _ _, strict => by
    cases strict <;>
      simp [agrees, strip, expandedParameter?, Parameter.sameSlot_self,
        agrees_self related owner false]

/-- A list of types agrees with itself. -/
theorem agreesList_self (related : Ty → Ty → Bool) :
    ∀ (ts : List Ty) (strict : Bool), agreesList related ts strict ts = true
  | [], _ => by simp [agreesList]
  | t :: ts, strict => by
    simp [agreesList, agrees_self related t, agreesList_self related ts]

end

/-- The value of a Boolean, found in another way. -/
abbrev Known (p : Bool) : Type :=
  { answer : Bool // answer = p }

namespace Known

/-- The value itself. -/
def of (p : Bool) : Known p :=
  ⟨p, rfl⟩

/-- A conjunction, of which the second part is looked at only if the first holds. -/
@[inline]
def and {p q : Bool} (x : Known p) (y : Unit → Known q) : Known (p && q) :=
  ⟨x.val && (y ()).val, by rw [x.property, (y ()).property]⟩

/-- A disjunction, of which the second part is looked at only if the first fails. -/
@[inline]
def or {p q : Bool} (x : Known p) (y : Unit → Known q) : Known (p || q) :=
  ⟨x.val || (y ()).val, by rw [x.property, (y ()).property]⟩

/-- The value of an equal Boolean. -/
@[inline]
def cast {p q : Bool} (x : Known p) (h : q = p) : Known q :=
  ⟨x.val, h ▸ x.property⟩

/-- Agreement of two types, known at once if they are one object. -/
@[inline]
def shared {related : Ty → Ty → Bool} {a b : Ty} {strict : Bool}
    (x : Unit → Known (agrees related a strict b)) : Known (agrees related a strict b) :=
  ⟨withPtrEq a b (fun _ => (x ()).val)
      (fun h => (x ()).property.trans (h ▸ agrees_self related a strict)),
    (x ()).property⟩

end Known

mutual

/-- Whether two types agree. -/
def agreement (related : Ty → Ty → Bool) :
    (a : Ty) → (strict : Bool) → (b : Ty) → Known (agrees related a strict b)
  | named a, strict, b => .of (agrees related (named a) strict b)
  | nested outer a, strict, b =>
    match h : if strict then b else b.strip with
    | nested outer' d =>
      ((Known.of (a.sameName d)).and fun _ =>
        .shared fun _ => agreement related outer false outer').cast (by simp [agrees, h])
    | _ => .of (agrees related (nested outer a) strict b)
  | array element rank, strict, b =>
    match h : if strict then b else b.strip with
    | array element' rank' =>
      ((Known.of (rank == rank')).and fun _ =>
        .shared fun _ => agreement related element strict element').cast (by simp [agrees, h])
    | _ => .of (agrees related (array element rank) strict b)
  | byRef element, strict, b =>
    match h : if strict then b else b.strip with
    | byRef element' =>
      (Known.shared fun _ => agreement related element strict element').cast (by simp [agrees, h])
    | _ => .of (agrees related (byRef element) strict b)
  | pointer element, strict, b =>
    match h : if strict then b else b.strip with
    | pointer element' =>
      (Known.shared fun _ => agreement related element strict element').cast (by simp [agrees, h])
    | _ => .of (agrees related (pointer element) strict b)
  | modified element modifier required, true, b =>
    match b with
    | modified element' modifier' required' =>
      (((Known.of (required == required')).and fun _ =>
        .shared fun _ => agreement related modifier true modifier').and fun _ =>
        .shared fun _ => agreement related element true element').cast (by simp [agrees])
    | b => .of (agrees related (modified element modifier required) true b)
  | modified element _ _, false, b =>
    (Known.shared fun _ => agreement related element false b).cast (by simp [agrees])
  | pinned element, true, b =>
    match b with
    | pinned element' =>
      (Known.shared fun _ => agreement related element true element').cast (by simp [agrees])
    | b => .of (agrees related (pinned element) true b)
  | pinned element, false, b =>
    (Known.shared fun _ => agreement related element false b).cast (by simp [agrees])
  | inst generic arguments, strict, b =>
    match h : if strict then b else b.strip with
    | inst generic' arguments' =>
      ((Known.shared fun _ => agreement related generic strict generic').and fun _ =>
        agreementList related arguments strict arguments').cast (by simp [agrees, h])
    | _ => .of (agrees related (inst generic arguments) strict b)
  | typeParam owner position name?, strict, b =>
    match hp : (typeParam owner position name?).expandedParameter?,
        hq : (if strict then b else b.strip).expandedParameter? with
    | some p, some q =>
      ((Known.of (p.sameSlot q)).and fun _ =>
        (Known.shared fun _ => agreement related owner false q.owner).or fun _ =>
          .of (related owner q.owner)).cast (by simp [agrees, hp, hq])
    | _, _ => .of (agrees related (typeParam owner position name?) strict b)
  | methodParam owner method declared position name?, strict, b =>
    match hp : (methodParam owner method declared position name?).expandedParameter?,
        hq : (if strict then b else b.strip).expandedParameter? with
    | some p, some q =>
      ((Known.of (p.sameSlot q)).and fun _ =>
        (Known.shared fun _ => agreement related owner false q.owner).or fun _ =>
          .of (related owner q.owner)).cast (by simp [agrees, hp, hq])
    | _, _ => .of (agrees related (methodParam owner method declared position name?) strict b)
  | functionPointer result parameters, strict, b =>
    match h : if strict then b else b.strip with
    | functionPointer result' parameters' =>
      ((Known.shared fun _ => agreement related result strict result').and fun _ =>
        agreementList related parameters strict parameters').cast (by simp [agrees, h])
    | _ => .of (agrees related (functionPointer result parameters) strict b)
termination_by structural a => a

/-- Whether two lists of types agree, place by place. -/
def agreementList (related : Ty → Ty → Bool) :
    (as : List Ty) → (strict : Bool) → (bs : List Ty) → Known (agreesList related as strict bs)
  | a :: as, strict, b :: bs =>
    ((Known.shared fun _ => agreement related a strict b).and fun _ =>
      agreementList related as strict bs).cast (by simp [agreesList])
  | as, strict, bs => .of (agreesList related as strict bs)
termination_by structural as => as

end

end Ty

end ScriptLowering
