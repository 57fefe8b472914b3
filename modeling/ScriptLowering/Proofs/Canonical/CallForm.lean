import ScriptLowering.Canonical.Intrinsic
import ScriptLowering.Proofs.Script.TypesIn

/-!
# What a call may become

`CallForm` lists the forms that the call of a method may have instead, each with the operands that
it is made of, and `Replaced` adds those of nodes that are no calls (`replaced_of_replaceCall?`).
Statements about all of them go case by case through the lists, and no further into how calls are
recognised.
-/

namespace ScriptLowering.Canonical

open Script

/-- How a method reads a nullable value, with a value in its place if it is absent. -/
inductive NullableForm (c : Core) (m : Method) (target : Node) (fallback? : Option Node) :
    Node → Prop where
  | present : m.name = "get_HasValue" →
    NullableForm c m target fallback? (presence c m.declaringType target)
  | value {underlying : Ty} : m.name = "get_Value" →
    m.declaringType.nullableArgument? = some underlying →
    NullableForm c m target fallback? (unwrapped underlying target)
  | valueOrDefault {underlying : Ty} : m.name = "GetValueOrDefault" →
    m.declaringType.nullableArgument? = some underlying → isRepeatable target = true →
    NullableForm c m target fallback? (.ternary (presence c m.declaringType target)
      (unwrapped underlying target) (fallback?.getD (.defaultOf underlying)) underlying)

/-- What an array is filled with: constants of its element type. -/
structure FilledWith (c : Core) (r : Retyping) (array : Node) (type : Ty) (elements : List Node) :
    Prop where
  element : (array.computedType c r).elementType? = some type
  constants : ∃ kind, type.numericKind? = some kind
    ∧ ∀ o ∈ elements, ∃ bytes, o = .literal (blobElement c type kind bytes)

/-- What the call of a method may become, by its operands. -/
inductive CallForm (h : Hierarchy) (r : Retyping) (m : Method) : List Node → Node → Prop where
  | equals {receiver other : Node} : m.name = "Equals" → m.isStatic = false →
    CallForm h r m [receiver, other] (.intrinsic "ObjectEquals" h.core.boolean [receiver, other])
  | staticEquals {receiver left right : Node} : m.name = "Equals" → m.isStatic = true →
    CallForm h r m [receiver, left, right]
      (.intrinsic "ObjectEquals" h.core.boolean [left, right])
  | identity {receiver left right : Node} : m.name = "ReferenceEquals" →
    CallForm h r m [receiver, left, right] (.binary .equal left right h.core.boolean)
  | typeOf {receiver : Node} : m.name = "GetType" →
    CallForm h r m [receiver] (.intrinsic "GetType" h.core.type [receiver])
  /-- The delegate is created in place, for a static method. -/
  | static {constructor callee : Method} {type : Ty} {target : Node} {rest arguments : List Node} :
    m.name = "Invoke" → type.isDelegate = true → callee.isStatic = true →
    CallForm h r m
      (⟨.newObject constructor type, [target, ⟨.methodIdentifier callee, rest⟩]⟩ :: arguments)
      (.invocation callee .static false .empty arguments)
  /-- The delegate is created in place, for a method of its target. -/
  | direct {constructor callee : Method} {type : Ty} {target : Node} {rest arguments : List Node} :
    m.name = "Invoke" → type.isDelegate = true → callee.isStatic = false →
    CallForm h r m
      (⟨.newObject constructor type, [target, ⟨.methodIdentifier callee, rest⟩]⟩ :: arguments)
      (.invocation callee .direct false target arguments)
  | delegate {receiver : Node} {arguments : List Node} :
    m.name = "Invoke" → createdDelegate? receiver = none →
    CallForm h r m (receiver :: arguments) (.invocation m .delegate false receiver arguments)
  | newArray {receiver array : Node} {field : Field} {type element : Ty} {rank : Nat}
    {rest elements : List Node} : m.name = "InitializeArray" → array.form = .newArray type rank →
    FilledWith h.core r array element elements →
    CallForm h r m [receiver, array, ⟨.literal (.fieldHandle field), rest⟩]
      ⟨.arrayLiteral element, elements⟩
  | storedArray {receiver array : Node} {field : Field} {element : Ty}
    {rest elements : List Node} : m.name = "InitializeArray" → array.isLocation = true →
    FilledWith h.core r array element elements →
    CallForm h r m [receiver, array, ⟨.literal (.fieldHandle field), rest⟩]
      (.binary .assign array ⟨.arrayLiteral element, elements⟩ (array.computedType h.core r))
  | concat {receiver first second : Node} {rest : List Node} : m.name = "Concat" →
    CallForm h r m (receiver :: first :: second :: rest)
      (rest.foldl (fun left right => .binary .add left right h.core.string)
        (.binary .add first second h.core.string))
  | nullable {target n : Node} {arguments : List Node} :
    NullableForm h.core m target arguments.head? n → CallForm h r m (target :: arguments) n

/-- What a node may become. -/
inductive Replaced (h : Hierarchy) (r : Retyping) : Node → Node → Prop where
  | call {m : Method} {dispatch : Dispatch} {explicitThis : Bool} {operands : List Node}
    {n : Node} : CallForm h r m operands n →
    Replaced h r ⟨.invocation m dispatch explicitThis, operands⟩ n
  | wrapped {constructor : Method} {type : Ty} {value : Node} :
    Replaced h r ⟨.newObject constructor type, [value]⟩ ⟨.nullableWrap type, [value]⟩
  | property {property : Property} {getter : Method} {target n : Node} :
    property.getter? = some getter → NullableForm h.core getter target none n →
    Replaced h r ⟨.propertyAccess property, [target]⟩ n

variable {h : Hierarchy} {r : Retyping} {c : Core} {m : Method} {operands : List Node} {n : Node}

theorem callForm_objectCall? (hcall : objectCall? h.core m operands = some n) :
    CallForm h r m operands n := by
  unfold objectCall? at hcall
  split at hcall
  · cases hcall
  · split at hcall <;> cases hcall
    · next hname hstatic => exact .equals hname hstatic
    · next hname hstatic => exact .staticEquals hname hstatic
    · next hname _ => exact .identity hname
    · next hname _ => exact .typeOf hname

theorem callForm_delegateCall? {dispatch : Dispatch}
    (hcall : delegateCall? m dispatch operands = some n) : CallForm h r m operands n := by
  unfold delegateCall? at hcall
  split at hcall
  · cases hcall
  · next hinvoke =>
    simp only [Bool.or_eq_true, bne_iff_ne, not_or, Classical.not_not] at hinvoke
    split at hcall
    · cases hcall
    · split at hcall
      · next callee target hcreated =>
        unfold createdDelegate? at hcreated
        split at hcreated
        · split at hcreated <;> cases hcreated
          next hdelegate =>
          split at hcall <;> cases hcall
          · next hstatic => exact .static hinvoke.1.1 hdelegate hstatic
          · next hstatic => exact .direct hinvoke.1.1 hdelegate (Bool.eq_false_iff.mpr hstatic)
        · cases hcreated
      · next hcreated =>
        split at hcall <;> cases hcall
        exact .delegate hinvoke.1.1 hcreated

/-- Only new arrays and locations are filled. -/
theorem filledWith_of_blobElements? {array : Node} {type : Ty} {data : List UInt8}
    {elements : List Node} (htype : (array.computedType c r).elementType? = some type)
    (helements : blobElements? c array type data = some elements) :
    FilledWith c r array type elements
      ∧ (array.isLocation = true ∨ ∃ type rank, array.form = .newArray type rank) := by
  unfold blobElements? at helements
  simp only [Option.bind_eq_bind, Option.bind_eq_some_iff] at helements
  obtain ⟨kind, hkind, width, -, count, hcount, helements⟩ := helements
  split at helements <;> cases helements
  refine ⟨⟨htype, kind, hkind, fun o ho => ?_⟩, ?_⟩
  · obtain ⟨bytes, -, rfl⟩ := List.mem_map.mp ho
    exact ⟨bytes, rfl⟩
  · unfold blobCount? at hcount
    split at hcount
    · next hform => exact .inr ⟨_, _, hform⟩
    · cases hcount
    · split at hcount
      · next hlocation => exact .inl hlocation
      · cases hcount

theorem callForm_arrayInitializer? (hcall : arrayInitializer? h.core r m operands = some n) :
    CallForm h r m operands n := by
  unfold arrayInitializer? at hcall
  split at hcall
  · cases hcall
  · next hname =>
    simp only [Bool.or_eq_true, bne_iff_ne, not_or, Classical.not_not] at hname
    split at hcall
    · next array field _ =>
      simp only [Option.bind_eq_bind, Option.bind_eq_some_iff] at hcall
      obtain ⟨data, -, element, helement, elements, helements, hcall⟩ := hcall
      obtain ⟨hfilled, harray⟩ := filledWith_of_blobElements? helement helements
      split at hcall
      · next hlocation =>
        rcases hassign : Node.assign h.core r array ⟨.arrayLiteral element, elements⟩ with e | n'
          <;> rw [hassign] at hcall <;> cases hcall
        obtain ⟨-, rfl⟩ := Node.eq_of_compoundAssign hassign
        exact .storedArray hname.1 hlocation hfilled
      · next hlocation =>
        cases hcall
        obtain ⟨type, rank, hform⟩ := harray.resolve_left hlocation
        exact .newArray hname.1 hform hfilled
    · cases hcall

theorem callForm_stringConcat? (hcall : stringConcat? h r m operands.tail = some n) :
    CallForm h r m operands n := by
  unfold stringConcat? at hcall
  split at hcall
  · cases hcall
  · next hname =>
    simp only [Bool.or_eq_true, bne_iff_ne, not_or, Classical.not_not] at hname
    split at hcall
    · next hoperands =>
      dsimp only at hcall
      split at hcall <;> cases hcall
      cases operands with
      | nil => cases hoperands
      | cons receiver arguments =>
        cases hoperands
        exact .concat hname.1.1
    · cases hcall

theorem nullableForm_of_nullableMember? {target : Node} {fallback? : Option Node}
    (hcall : nullableMember? c m target fallback? = some n) :
    NullableForm c m target fallback? n := by
  unfold nullableMember? at hcall
  obtain ⟨underlying, hunderlying, hcall⟩ := Option.bind_eq_some_iff.mp hcall
  split at hcall
  · next hname =>
    cases hcall
    exact .present hname
  · next hname =>
    cases hcall
    exact .value hname hunderlying
  · next hname =>
    split at hcall <;> cases hcall
    next hrepeatable => exact .valueOrDefault hname hunderlying hrepeatable
  · cases hcall

theorem replaced_of_replaceCall? {node : Node} (hreplace : replaceCall? h r node = some n) :
    Replaced h r node n := by
  obtain ⟨form, operands⟩ := node
  unfold replaceCall? at hreplace
  split at hreplace
  · next m dispatch explicitThis hform =>
    obtain rfl : form = .invocation m dispatch explicitThis := hform
    simp only [Option.orElse_eq_or, Option.or_eq_some_iff] at hreplace
    refine .call ?_
    rcases hreplace with hcall | ⟨-, hcall | ⟨-, hcall | ⟨-, hcall | ⟨-, hcall⟩⟩⟩⟩
    · exact callForm_objectCall? hcall
    · exact callForm_delegateCall? hcall
    · exact callForm_arrayInitializer? hcall
    · exact callForm_stringConcat? hcall
    · unfold nullableCall? at hcall
      split at hcall
      · cases hcall
      · split at hcall
        · cases hcall
        · exact .nullable (nullableForm_of_nullableMember? hcall)
  · next constructor type hform =>
    obtain rfl : form = .newObject constructor type := hform
    split at hreplace <;> cases hreplace
    next hone =>
    simp only [Bool.and_eq_true, decide_eq_true_eq] at hone
    obtain ⟨value, rfl⟩ := List.length_eq_one_iff.mp hone.2
    exact .wrapped
  · next property hform =>
    obtain rfl : form = .propertyAccess property := hform
    split at hreplace
    · next getter target hgetter htarget =>
      obtain rfl : operands = [target] := htarget
      split at hreplace
      · exact .property hgetter (nullableForm_of_nullableMember? hreplace)
      · cases hreplace
    · cases hreplace
  · cases hreplace

/-! ### What forms are made of -/

/-- The forms of what nodes become. -/
def isResult : Form → Bool
  | .binary .. | .ternary .. | .invocation .. | .intrinsicCall .. | .arrayLiteral _
  | .nullableWrap _ | .nullableUnwrap _ => true
  | _ => false

theorem form_additions {type : Ty} {left : Node} (rest : List Node)
    (hleft : left.form = .binary .add type) :
    (rest.foldl (fun left right => .binary .add left right type) left).form
      = .binary .add type := by
  induction rest generalizing left with
  | nil => exact hleft
  | cons next rest ih => exact ih rfl

theorem Replaced.isResult {node : Node} (hn : Replaced h r node n) : isResult n.form = true := by
  have hread {getter : Method} {target : Node} {fallback? : Option Node}
      (hmember : NullableForm h.core getter target fallback? n) :
      Canonical.isResult n.form = true := by
    cases hmember <;> rfl
  cases hn with
  | call hform =>
    cases hform with
    | concat =>
      rw [form_additions _ rfl]
      rfl
    | nullable hmember => exact hread hmember
    | _ => rfl
  | wrapped => rfl
  | property _ hmember => exact hread hmember

/-- A property of types and one of trees that hold of all that a node becomes, if they hold of its
types and operands. -/
structure Forming (h : Hierarchy) (r : Retyping) (types : Ty → Prop) (p : Node → Prop) : Prop where
  boolean : types h.core.boolean := by trivial
  string : types h.core.string := by trivial
  type : types h.core.type := by trivial
  underlying {t u : Ty} : types t → t.nullableArgument? = some u → types u := by
    exact fun _ _ => trivial
  empty : p .empty
  nullOf {t : Ty} : types t → p (.nullOf t)
  defaultOf {t : Ty} : types t → p (.defaultOf t)
  wrapped {t : Ty} {n : Node} : types t → p n → p ⟨.nullableWrap t, [n]⟩
  unwrapped {t : Ty} {n : Node} : types t → p n → p (unwrapped t n)
  operation {op : BinaryOp} {left right : Node} {t : Ty} : op.isAssignment = false → types t →
    p left → p right → p (.binary op left right t)
  ternary {condition first second : Node} {t : Ty} : types t → p condition → p first → p second →
    p (.ternary condition first second t)
  intrinsic {name : String} {t : Ty} {ns : List Node} : types t → (∀ n ∈ ns, p n) →
    p (.intrinsic name t ns)
  invocation {m : Method} {dispatch : Dispatch} {target : Node} {arguments : List Node} :
    (∀ t ∈ m.types, types t) → p target → (∀ a ∈ arguments, p a) →
    p (.invocation m dispatch false target arguments)
  /-- A delegate that is created in place holds its target and its method. -/
  created {constructor callee : Method} {t : Ty} {target : Node} {rest : List Node} :
    p ⟨.newObject constructor t, [target, ⟨.methodIdentifier callee, rest⟩]⟩ →
    p target ∧ ∀ t ∈ callee.types, types t
  filled {array : Node} {t : Ty} {elements : List Node} : p array →
    FilledWith h.core r array t elements → p ⟨.arrayLiteral t, elements⟩
  assign {array value : Node} : array.isLocation = true → p array → p value →
    p (.binary .assign array value (array.computedType h.core r))

namespace Forming

variable {types : Ty → Prop} {p : Node → Prop} (hp : Forming h r types p)
include hp

theorem additions : ∀ {rest : List Node} {left : Node}, p left → (∀ o ∈ rest, p o) →
    p (rest.foldl (fun left right => .binary .add left right h.core.string) left)
  | [], _, hleft, _ => hleft
  | _ :: _, _, hleft, hrest => by
    obtain ⟨hnext, hrest⟩ := List.forall_mem_cons.mp hrest
    rw [List.foldl_cons]
    exact additions (hp.operation rfl hp.string hleft hnext) hrest

theorem nullable (hm : ∀ t ∈ m.types, types t) {target : Node} {fallback? : Option Node}
    (hn : NullableForm h.core m target fallback? n) (htarget : p target)
    (hfallback : ∀ o, fallback? = some o → p o) : p n := by
  have hnullable : types m.declaringType := hm _ (by simp [Method.types])
  have hpresence : p (presence h.core m.declaringType target) :=
    hp.operation rfl hp.boolean htarget (hp.nullOf hnullable)
  cases hn with
  | present => exact hpresence
  | value _ hunderlying => exact hp.unwrapped (hp.underlying hnullable hunderlying) htarget
  | valueOrDefault _ hunderlying =>
    have hvalue := hp.underlying hnullable hunderlying
    refine hp.ternary hvalue hpresence (hp.unwrapped hvalue htarget) ?_
    cases fallback? with
    | none => exact hp.defaultOf hvalue
    | some o => exact hfallback o rfl

theorem callForm (hm : ∀ t ∈ m.types, types t) (hn : CallForm h r m operands n)
    (hoperands : ∀ o ∈ operands, p o) : p n := by
  cases hn with
  | equals => exact hp.intrinsic hp.boolean hoperands
  | staticEquals => exact hp.intrinsic hp.boolean (List.forall_mem_cons.mp hoperands).2
  | identity =>
    simp only [List.forall_mem_cons] at hoperands
    exact hp.operation rfl hp.boolean hoperands.2.1 hoperands.2.2.1
  | typeOf => exact hp.intrinsic hp.type hoperands
  | static =>
    obtain ⟨hreceiver, harguments⟩ := List.forall_mem_cons.mp hoperands
    exact hp.invocation (hp.created hreceiver).2 hp.empty harguments
  | direct =>
    obtain ⟨hreceiver, harguments⟩ := List.forall_mem_cons.mp hoperands
    obtain ⟨htarget, hcallee⟩ := hp.created hreceiver
    exact hp.invocation hcallee htarget harguments
  | delegate =>
    obtain ⟨hreceiver, harguments⟩ := List.forall_mem_cons.mp hoperands
    exact hp.invocation hm hreceiver harguments
  | newArray _ _ hfilled =>
    simp only [List.forall_mem_cons] at hoperands
    exact hp.filled hoperands.2.1 hfilled
  | storedArray _ hlocation hfilled =>
    simp only [List.forall_mem_cons] at hoperands
    have harray := hoperands.2.1
    exact hp.assign hlocation harray (hp.filled harray hfilled)
  | concat =>
    simp only [List.forall_mem_cons] at hoperands
    obtain ⟨-, hfirst, hsecond, hrest⟩ := hoperands
    exact hp.additions (hp.operation rfl hp.string hfirst hsecond) hrest
  | nullable hread =>
    obtain ⟨htarget, harguments⟩ := List.forall_mem_cons.mp hoperands
    exact hp.nullable hm hread htarget fun o ho => harguments o (List.mem_of_head? ho)

theorem replaced {node : Node} (hn : Replaced h r node n) (htypes : ∀ t ∈ node.form.types, types t)
    (hoperands : ∀ o ∈ node.operands, p o) : p n := by
  cases hn with
  | call hform => exact hp.callForm htypes hform hoperands
  | @wrapped _ type =>
    exact hp.wrapped (htypes type (by simp [Form.types])) (hoperands _ List.mem_cons_self)
  | property hgetter hread =>
    refine hp.nullable (fun t ht => htypes t ?_) hread (hoperands _ List.mem_cons_self) nofun
    simp [Form.types, Property.types, hgetter, ht]

end Forming

end ScriptLowering.Canonical
